import ObjectIr.Pass.CopyPropagation

/-!
# Demonstration programs

Small programs that show classes, blocks and singleton classes at work. Each is built from a first
number on, and takes one number per body, for the body and its lexical level alike; `size` says
how many a program takes.
-/

namespace ObjectIr.Demo

/-- A draft at the outermost position, or inside another one. -/
def draft (id : Nat) (kind : BodyKind) (name : String) (outer? : Option StaticScope := none) :
    Draft :=
  { name, scope := .nest ⟨id, kind, []⟩ outer?, file := "demo.rb" }

/-- Builds the draft with the instructions, under the number of its level. -/
def build (d : Draft) (code : List Instr) : Except BuildError Body :=
  { d with code }.build d.scope.id

def temp (index : Nat) : Variable := .temp ⟨.generic, index⟩

def valueOf (index : Nat) : Operand := .var (temp index)

/-- A method that returns a constant. -/
def constantMethod (id : Nat) (name : String) (value : Operand) : Except BuildError Body :=
  build (draft id .method name) [.ret value]

def classScriptSize : Nat := 3

/-- Defines a class with one constant method, runs its body, and answers the class. -/
def classScript (id : Nat) (name : String) (superclass? : Option String) (method : String)
    (value : Operand) : Except BuildError Body := do
  let constant ← constantMethod id method value
  let body ← build (draft (id + 1) .classBody name) [.defineMethod method constant]
  let (first, superclass, search) := match superclass? with
    | some s => (1, valueOf 0, [InstrOf.searchConst (temp 0) s])
    | none => (0, .undefined, [])
  build (draft (id + 2) .script "<main>") (search ++ [
    .defineClass (temp first) body .scopeModule superclass,
    .processModuleBody (temp (first + 1)) (valueOf first),
    .searchConst (temp (first + 2)) name,
    .ret (valueOf (first + 2))])

def blockScriptSize : Nat := 4

/-- A method that yields to a block which returns from the method that made it. -/
def blockScript (id : Nat) : Except BuildError Body := do
  let yielder ← build (draft id .method "yielder") [
    .receiveBlock (temp 0),
    .yield (temp 1) (valueOf 0) [],
    .ret (.symbol "after_yield")]
  let finder := draft (id + 1) .method "finder"
  let block ← build (draft (id + 2) .closure "finder_block" finder.scope) [
    .nonlocalRet (.symbol "found")]
  let finder ← build finder [
    .buildClosure (temp 0) block,
    .plainCall (temp 1) .selfObject "yielder" [] (some (valueOf 0)),
    .ret (.symbol "not_found")]
  build (draft (id + 3) .script "<main>") [
    .defineMethod "yielder" yielder,
    .defineMethod "finder" finder,
    .plainCall (temp 0) .selfObject "finder" [] none,
    .ret (valueOf 0)]

def singletonScriptSize : Nat := 5

/-- A class with a method on its singleton class, which the script calls; copies propagated. -/
def singletonScript (id : Nat) : Except BuildError Body := do
  let name ← constantMethod id "name" (.symbol "config")
  let metaclass ← build (draft (id + 1) .metaclassBody "singleton") [.defineMethod "name" name]
  let config ← build (draft (id + 2) .classBody "Config") [
    .defineClass (temp 0) metaclass .selfObject .undefined,
    .processModuleBody (temp 1) (valueOf 0)]
  let script ← build (draft (id + 3) .script "<main>") [
    .defineClass (temp 0) config .scopeModule .undefined,
    .processModuleBody (temp 1) (valueOf 0),
    .searchConst (temp 2) "Config",
    .plainCall (temp 3) (valueOf 2) "name" [] none,
    .ret (valueOf 3)]
  script.optimized (id + 4)

end ObjectIr.Demo
