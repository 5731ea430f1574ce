import ObjectIr.Machine.Dispatch

/-!
# How calls are answered

A call is answered in one of six ways (`Heap.Dispatched`): by a method of the receiver, or else by
what values answer by themselves. The answer then says what of the heap the call has changed. What
calls preserve is shown by these cases.
-/

namespace ObjectIr

theorem Method.invocation_eq {m : Method} {c : Context} {receiver : Value} {name : String}
    {args : List Value} {block? : Option Block} {i : Invocation}
    (hi : m.invocation c receiver name args block? = .ok i) :
    i = { body := m.body, frame := ⟨receiver, m.visibility, name, block?, m.module⟩,
          parent? := c.currentScope?, args } := by
  rw [invocation] at hi
  split at hi <;> cases hi
  rfl

namespace Heap

variable (h : Heap) (c : Context) (receiver : Value) (name : String) (args : List Value)
  (block? : Option Block)

/-- What a call comes to, and the heap that it leaves. -/
inductive Dispatched : Reply → Heap → Prop
  | method {m : Method} {i : Invocation} (hm : h.findMethod? receiver name = some m)
    (hi : m.invocation c receiver name args block? = .ok i) : Dispatched (.invoke i) h
  | classOf : Dispatched (.value (.module receiver.class)) h
  | singleton {s : Module} {k : Heap} (hs : h.singletonClass receiver = .ok (s, k)) :
    Dispatched (.value (.module s)) k
  | block {b : Block} (hb : receiver = .block b) (hm : h.findMethod? receiver name = none) :
    Dispatched (.invoke (b.invocation args)) h
  | object {m : Module} (hm : receiver = .module m) (hclass : m.isClass = true)
    (hplain : m.isSingleton = false) :
    Dispatched (.value (.object (h.newObject m).1)) (h.newObject m).2
  | constructed {m : Module} {x : Method} {i : Invocation} (hm : receiver = .module m)
    (hclass : m.isClass = true) (hplain : m.isSingleton = false)
    (hx : (h.newObject m).2.findMethod? (.object (h.newObject m).1) "initialize" = some x)
    (hi : x.invocation c (.object (h.newObject m).1) "initialize" args block? = .ok i) :
    Dispatched (.invoke { i with answer? := some (.object (h.newObject m).1) }) (h.newObject m).2

variable {h c receiver name args block?} {k : Heap} {q : Reply}

theorem instantiate_dispatched {m : Module} (hm : receiver = .module m) (hclass : m.isClass = true)
    (hplain : m.isSingleton = false) (hk : h.instantiate c m args block? = .ok (q, k)) :
    h.Dispatched c receiver name args block? q k := by
  simp only [instantiate] at hk
  split at hk
  · next x hx =>
    cases hi : x.invocation c (.object (h.newObject m).1) "initialize" args block? with
    | error f => rw [hi] at hk; cases hk
    | ok i => rw [hi] at hk; cases hk; exact .constructed hm hclass hplain hx hi
  · split at hk <;> cases hk
    exact .object hm hclass hplain

theorem reflect_dispatched {f : Failure}
    (hk : builtin.reflect h receiver name args (.error f) = .ok (q, k)) :
    h.Dispatched c receiver name args block? q k := by
  rw [builtin.reflect] at hk
  split at hk
  · cases hk
    exact .classOf
  · split at hk
    · cases hs : h.singletonClass receiver with
      | error f => rw [hs] at hk; cases hk
      | ok p => rw [hs] at hk; cases hk; exact .singleton hs
    · cases hk

theorem dispatch_dispatched {type : CallType}
    (hk : h.dispatch c receiver name args block? type = .ok (q, k)) :
    h.Dispatched c receiver name args block? q k := by
  rw [dispatch] at hk
  split at hk
  · next hm =>
    simp only [builtin] at hk
    split at hk
    · split at hk
      · next hnew =>
        exact instantiate_dispatched rfl hnew.2.1 (Bool.not_eq_true _ ▸ hnew.2.2) hk
      · exact reflect_dispatched hk
    · split at hk
      · cases hk
        exact .block rfl hm
      · exact reflect_dispatched hk
    · exact reflect_dispatched hk
  · next m hm =>
    split at hk
    · cases hk
    · cases hi : m.invocation c receiver name args block? with
      | error f => rw [hi] at hk; cases hk
      | ok i => rw [hi] at hk; cases hk; exact .method hm hi

end Heap

end ObjectIr
