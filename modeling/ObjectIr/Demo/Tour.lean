import ObjectIr.Code.Listing
import ObjectIr.Demo.Programs
import ObjectIr.Machine.Run
import ObjectIr.Pass.Nested

/-!
# The tour

Runs the demonstration programs one after the other on one heap, and collects what they print. A
program that fails ends the tour; what was printed before stays.
-/

namespace ObjectIr

inductive Demo where
  | reopen
  | nonlocalReturn
  | singleton
  | threads
  deriving DecidableEq

namespace Demo

def all : List Demo := [.reopen, .nonlocalReturn, .singleton, .threads]

def title : Demo → String
  | .reopen => "Reopen"
  | .nonlocalReturn => "NonlocalReturn"
  | .singleton => "Singleton"
  | .threads => "Threads"

structure Settings where
  dump : Bool
  /-- Contexts of the last program; there is at least one. -/
  threads : Nat
  limit : Nat

/-- Why a program stopped. -/
inductive Trouble where
  | build (e : BuildError)
  | failure (f : Failure)
  | notClass (v : Value)
  | reopened (v : Value)
  | unfinished

def Trouble.text : Trouble → String
  | .build e => "invalid IR: " ++ e.message
  | .failure f => f.text
  | .notClass v => v.text ++ " is not a class"
  | .reopened v => v.text ++ " was reopened"
  | .unfinished => "out of steps"

/-- What the programs share: the heap, and what was printed so far. -/
structure Stage where
  heap : Heap := .initial
  printed : List String := []

abbrev Show := ReaderT Settings (EStateM Trouble Stage)

def fuel : Nat := 1000

namespace Show

def print (s : String) : Show Unit := modify fun stage => { stage with
  printed := stage.printed ++ [s] }

def line (s : String) : Show Unit := print (s ++ "\n")

def built {α : Type} : Except BuildError α → Show α
  | .ok a => pure a
  | .error e => throw (.build e)

def settled {α : Type} : Except Failure α → Show α
  | .ok a => pure a
  | .error f => throw (.failure f)

/-- Runs a machine that is started on the heap, and keeps the heap that it leaves. -/
def runMachine (start : Nat → Heap → Machine) : Show Result := do
  let limit := (← read).limit
  match (start limit (← get).heap).run limit fuel with
  | none => throw .unfinished
  | some r =>
    modify fun stage => { stage with heap := r.heap }
    return r

def dump (b : Body) : Show Unit := do
  if (← read).dump then (b :: b.nested).forM fun b => print b.listing

/-- Runs a script in a context, and prints what it answers and the counts of the context. -/
def runScript (c : Context) (b : Body) : Show (Value × Context) := do
  dump b
  let r ← runMachine fun limit h => b.start limit h c
  let v ← settled r.outcome
  line ("=> " ++ v.text ++ "    [" ++ r.context.stats.text ++ "]")
  return (v, r.context)

/-- Calls a method without arguments. -/
def send (c : Context) (receiver : Value) (name : String) : Show (Value × Context) := do
  let r ← runMachine fun limit h => receiver.send limit h c name []
  return (← settled r.outcome, r.context)

end Show

open Show

/-- Defines a class and a subclass, reopens the subclass, and answers the context of the scripts. -/
def showReopened (id : Nat) : Show Context := do
  let shape ← built (classScript id "Shape" none "sides" (.fixnum 0))
  let square ← built (classScript (id + classScriptSize) "Square" "Shape" "sides" (.fixnum 4))
  let reopened ←
    built (classScript (id + 2 * classScriptSize) "Square" none "corners" (.fixnum 4))
  let (_, c) ← runScript {} shape
  let (first, c) ← runScript c square
  let (second, c) ← runScript c reopened
  line ("same class after reopen: " ++ toString (first.identical second))
  let some m := second.module? | throw (.notClass second)
  let object ← modifyGet fun stage =>
    let (o, heap) := stage.heap.newObject m
    (Value.object o, { stage with heap })
  let (sides, c) ← send c object "sides"
  let (corners, c) ← send c object "corners"
  line ("Square#sides => " ++ sides.text ++ ", Square#corners => " ++ corners.text)
  return c

/-- Reopens the subclass against its kind. -/
def runMismatch (id : Nat) (c : Context) : Show Result := do
  let mismatch ← built (classScript id "Square" "Object" "sides" (.fixnum 4))
  runMachine fun limit h => mismatch.start limit h c

/-- Tells how a run failed; one that did not is trouble. -/
def tellFailure (r : Result) : Show Unit :=
  match r.outcome with
  | .error f => line ("reopen with another superclass: " ++ f.text)
  | .ok v => throw (.reopened v)

def showReopen (id : Nat) : Show Unit := do
  let c ← showReopened id
  let r ← runMismatch (id + 3 * classScriptSize) c
  tellFailure r

def showNonlocalReturn (id : Nat) : Show Unit := do
  let script ← built (blockScript id)
  let _ ← runScript {} script

/-- Runs the script twice: the second time, it finds the class and its singleton class. -/
def showSingleton (id : Nat) : Show Unit := do
  let script ← built (singletonScript id)
  let (_, c) ← runScript {} script
  let _ ← runScript c script

/-- Runs a script in fresh contexts, one after the other; the answers in order. -/
def runFresh (script : Body) : Nat → Show (List Value)
  | 0 => return []
  | n + 1 => do
    let r ← runMachine fun limit h => script.start limit h {}
    let v ← settled r.outcome
    let vs ← runFresh script n
    return v :: vs

/-- Several contexts define a class, in the way that is given; all of them come to the same one. -/
def showThreadsWith (runAll : Body → Nat → Show (List Value)) (id : Nat) : Show Unit := do
  let script ← built (classScript id "Worker" none "id" (.fixnum 1))
  dump script
  let classes ← runAll script (max (← read).threads 1)
  let shared := classes.all fun v => (classes.head?.map fun w => v.identical w).getD true
  line (toString classes.length ++ " threads defined Worker, one class: " ++ toString shared)

/-- The program of a demonstration; each has numbers of its own. -/
def programWith (runAll : Body → Nat → Show (List Value)) : Demo → Show Unit
  | .reopen => showReopen 0
  | .nonlocalReturn => showNonlocalReturn (4 * classScriptSize)
  | .singleton => showSingleton (4 * classScriptSize + blockScriptSize)
  | .threads => showThreadsWith runAll (4 * classScriptSize + blockScriptSize + singletonScriptSize)

def program : Demo → Show Unit := programWith runFresh

/-- How a tour ends. -/
structure Ending where
  stage : Stage
  /-- The program that failed, and why. -/
  trouble? : Option (Demo × Trouble)

def Stage.announce (stage : Stage) (d : Demo) : Stage :=
  { stage with printed := stage.printed ++ ["== " ++ d.title ++ " ==\n"] }

/-- Shows the demonstrations by their programs on one stage, until one fails. -/
def tourFrom (programs : Demo → Show Unit) (settings : Settings) (stage : Stage) :
    List Demo → Ending
  | [] => ⟨stage, none⟩
  | d :: ds =>
    match programs d settings (stage.announce d) with
    | .ok () stage => tourFrom programs settings stage ds
    | .error t stage => ⟨stage, some (d, t)⟩

def tour (settings : Settings) (demos : List Demo) : Ending := tourFrom program settings {} demos

end Demo

end ObjectIr
