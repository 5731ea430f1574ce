import ObjectIr.Demo.Tour

/-!
# Command line

Reads the arguments from left to right (`Request.ofArgs`): the first one that is wrong, or that
asks for help or the version, decides. `answer` carries a request out and gives what the program
prints and its exit code.
-/

namespace ObjectIr.CommandLine

open ObjectIr (Demo)

structure Options where
  demos : List Demo := Demo.all
  dump : Bool := false
  threads : Nat := 4
  trace : Bool := false
  limit : Nat := 1024

inductive Request where
  | run (o : Options)
  | version
  | help
  | usageError

inductive ValueOption where
  | demo
  | threads
  | maxCallDepth
  deriving DecidableEq

inductive SwitchOption where
  | dump
  | trace
  deriving DecidableEq

def demosOf? : String → Option (List Demo)
  | "reopen" => some [.reopen]
  | "nonlocal-return" => some [.nonlocalReturn]
  | "singleton" => some [.singleton]
  | "threads" => some [.threads]
  | "all" => some Demo.all
  | _ => none

/-- The number that decimal digits denote, if there are any and nothing else. -/
def digits? (cs : List Char) : Option Nat :=
  if cs ≠ [] ∧ cs.all Char.isDigit then
    some (cs.foldl (fun n c => 10 * n + (c.toNat - '0'.toNat)) 0)
  else none

/-- A count of 64 bits; a plus sign may precede it. -/
def count? (s : String) : Option Nat :=
  let cs := match s.toList with
    | '+' :: cs => cs
    | cs => cs
  (digits? cs).filter fun n => n < Nat.pow 2 64

def Options.set (o : Options) (v : ValueOption) (s : String) : Option Options :=
  match v with
  | .demo => (demosOf? s).map fun demos => { o with demos }
  | .threads => (count? s).map fun threads => { o with threads }
  | .maxCallDepth => (count? s).map fun limit => { o with limit }

def Options.switch (o : Options) : SwitchOption → Options
  | .dump => { o with dump := true }
  | .trace => { o with trace := true }

/-- The options read so far, and those that may not come again. -/
structure Progress where
  options : Options := {}
  values : List ValueOption := []
  switches : List SwitchOption := []

/-- Sets an option, unless it was set before. -/
def Progress.set (p : Progress) (v : ValueOption) (s : String) : Option Progress :=
  if v ∈ p.values then none
  else (p.options.set v s).map fun options => { p with options, values := v :: p.values }

def Progress.switch (p : Progress) (v : SwitchOption) : Option Progress :=
  if v ∈ p.switches then none
  else some { p with options := p.options.switch v, switches := v :: p.switches }

/-- What an argument is on its own, with the value that an equals sign attaches to it. -/
inductive Argument where
  | value (o : ValueOption) (attached? : Option String)
  | switch (o : SwitchOption)
  | version
  | help
  /-- Two hyphens alone: the arguments after them are no options. -/
  | terminator
  | other

/-- The argument of a name after two hyphens. -/
def Argument.ofName (name : String) (attached? : Option String) : Argument :=
  match name, attached? with
  | "demo", _ => .value .demo attached?
  | "threads", _ => .value .threads attached?
  | "max-call-depth", _ => .value .maxCallDepth attached?
  | "dump", none => .switch .dump
  | "trace", none => .switch .trace
  | "version", none => .version
  | "help", none => .help
  | _, _ => .other

def Argument.ofChars : List Char → Argument
  | ['-', '-'] => .terminator
  | '-' :: '-' :: cs =>
    let name := String.ofList (cs.takeWhile (· ≠ '='))
    match cs.dropWhile (· ≠ '=') with
    | [] => .ofName name none
    | _ :: attached => .ofName name (some (String.ofList attached))
  | '-' :: 'V' :: _ => .version
  | '-' :: 'h' :: _ => .help
  | _ => .other

/-- Whether an argument may be the value of the option before it. -/
def isPlain (s : String) : Bool :=
  match s.toList with
  | '-' :: _ :: _ => false
  | _ => true

/-- Reads the arguments, the first of them as the value of `pending?`, if that is an option. -/
def parse (p : Progress) (pending? : Option ValueOption) : List String → Request
  | [] => if pending?.isSome then .usageError else .run p.options
  | arg :: args =>
    match pending? with
    | some v =>
      match if isPlain arg then p.set v arg else none with
      | some p => parse p none args
      | none => .usageError
    | none =>
      match Argument.ofChars arg.toList with
      | .value v none => parse p (some v) args
      | .value v (some s) =>
        match p.set v s with
        | some p => parse p none args
        | none => .usageError
      | .switch v =>
        match p.switch v with
        | some p => parse p none args
        | none => .usageError
      | .version => .version
      | .help => .help
      | .terminator => if args.isEmpty then .run p.options else .usageError
      | .other => .usageError

def Request.ofArgs (args : List String) : Request := parse {} none args

/-- What a program leaves behind. -/
structure Answer where
  exit : Nat
  stdout : String
  stderr : String

def usage : String :=
  "Usage: vesper [--demo DEMO] [--dump] [--threads N] [--trace] [--max-call-depth N]\n"

/-- The answer of a tour. -/
def Answer.ofEnding (e : Demo.Ending) : Answer :=
  let stdout := String.join e.stage.printed
  match e.trouble? with
  | none => ⟨0, stdout, ""⟩
  | some (d, t) => ⟨1, stdout, "Error in " ++ d.title ++ " demo: " ++ t.text ++ "\n"⟩

def Options.settings (o : Options) : Demo.Settings := ⟨o.dump, o.threads, o.limit⟩

def answer : Request → Answer
  | .version => ⟨0, "vesper 0.1.0\n", ""⟩
  | .help => ⟨0, usage, ""⟩
  | .usageError => ⟨2, "", usage⟩
  | .run o => .ofEnding (Demo.tour o.settings o.demos)

end ObjectIr.CommandLine
