import ObjectIr.Heap.Lookup

/-!
# Definitions

Classes and modules are constants of their container: a definition opens the one that is there, or
makes it (`openClass`, `openModule`). A singleton class is made when it is first asked for
(`singletonClass`). `define` opens what a module body defines, binds the body to it, and answers
the method that runs the body. It checks everything before it changes anything.
-/

namespace ObjectIr

/-- The class to derive from, if deriving from the value is allowed. -/
def Value.asSuperclass : Value → Except Failure Module
  | .module m =>
    if m.isSingleton then .error (.type .singletonSuperclass)
    else if m.isInheritable then .ok m
    else if m.isClass then .error (.type (.finalSuperclass m.name))
    else .error (.type (.notClass Core.module.name))
  | v => .error (.type (.notClass v.class.name))

/-- What a module is called that is defined in `m`. Those in `Object` go by their own name. -/
def Module.qualify (m : Module) (name : String) : String :=
  if m = Core.object then name else m.name ++ "::" ++ name

namespace Heap

def setSingleton (h : Heap) (owner : Value) (s : Module) : Heap :=
  match owner with
  | .object o => { h with singletons := h.singletons.insert o.id s }
  | .module m => h.setTable m { h.table m with singleton? := some s }
  | _ => h

/-- The singleton class of an object or a module; nothing else can have one. -/
def singletonClass (h : Heap) (owner : Value) : Except Failure (Module × Heap) :=
  match h.singleton? owner with
  | some s => .ok (s, h)
  | none =>
    match owner with
    | .object _ | .module _ =>
      let (s, h) := h.newModule fun id => .root id ("#<Class:" ++ owner.text ++ ">") .singleton
      .ok (s, h.setSingleton owner s)
    | _ => .error (.type .noSingleton)

/--
The class of that name in a container. A superclass that is given has to be the one the class has;
a class that is made without one derives from `Object`.
-/
def openClass (h : Heap) (container : Module) (name : String) (superclass? : Option Module) :
    Except Failure (Module × Heap) :=
  let qualified := container.qualify name
  match h.constant? container name with
  | some (.module m) =>
    if !m.isClass || m.isSingleton then .error (.type (.notClassConstant qualified))
    else
      match superclass? with
      | none => .ok (m, h)
      | some s =>
        if m.superclass? = some s then .ok (m, h)
        else .error (.type (.superclassMismatch qualified))
  | some _ => .error (.type (.notClassConstant qualified))
  | none =>
    let (m, h) := h.newModule fun id => .subclass id qualified true (superclass?.getD Core.object)
    .ok (m, h.setConstant container name (.module m))

/-- The module of that name in a container. -/
def openModule (h : Heap) (container : Module) (name : String) :
    Except Failure (Module × Heap) :=
  let qualified := container.qualify name
  match h.constant? container name with
  | some (.module m) =>
    if m.isClass then .error (.type (.notModuleConstant qualified)) else .ok (m, h)
  | some _ => .error (.type (.notModuleConstant qualified))
  | none =>
    let (m, h) := h.newModule fun id => .root id qualified .module
    .ok (m, h.setConstant container name (.module m))

/-- Whether a definition comes to ask for its superclass. -/
def asksSuperclass (body : Body) (container : Value) : Bool :=
  container.module?.isSome && body.kind = .classBody

/-- Opens the module that a body defines in a container. -/
def openBody (h : Heap) (body : Body) (container : Module)
    (superclass? : Option Value) : Except Failure (Module × Heap) :=
  match body.kind with
  | .metaclassBody => h.singletonClass (.module container)
  | .moduleBody => h.openModule container body.name
  | .classBody =>
    match superclass? with
    | none => h.openClass container body.name none
    | some v =>
      match v.asSuperclass with
      | .error f => .error f
      | .ok s => h.openClass container body.name (some s)
  | kind => .error (.internal (.notModuleBody body.name kind))

/-- Defines or reopens a module; the answer runs the body, as a public method of the module. -/
def define (h : Heap) (body : Body) (container : Value) (superclass? : Option Value) :
    Except Failure (Method × Heap) :=
  match container.module? with
  | none => .error (.type .noContainer)
  | some c =>
    match h.openBody body c superclass? with
    | .error f => .error f
    | .ok (m, h) => .ok (((h.bindScope body.scope m).bindBody m body).newMethod body .public m)

end Heap

end ObjectIr
