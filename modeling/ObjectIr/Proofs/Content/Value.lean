import ObjectIr.Object.Core
import ObjectIr.Object.Failure

/-!
# The content of values

An array is a new one at each read, so two runs that read differently number their arrays
differently. The content of a value leaves these numbers out and keeps all else. Whatever the
machine asks of a value depends on its content alone: its class, its text, whether it is true, and
which module, method or block it is.
-/

namespace ObjectIr

/-- Optional values with the same image are both there, or neither is. -/
theorem map_eq_cases {α β : Type} {f : α → β} {x y : Option α} (h : x.map f = y.map f) :
    x = none ∧ y = none ∨ ∃ a b, x = some a ∧ y = some b ∧ f a = f b := by
  cases x with
  | none => exact .inl ⟨rfl, Option.map_eq_none_iff.1 h.symm⟩
  | some a =>
    obtain ⟨b, hy, hb⟩ := Option.map_eq_some_iff.1 h.symm
    exact .inr ⟨a, b, rfl, hy, hb.symm⟩

namespace Value

mutual

/-- The value without the numbers of its arrays. -/
def content : Value → Value
  | .nil => .nil
  | .bool b => .bool b
  | .fixnum n => .fixnum n
  | .float x => .float x
  | .string s => .string s
  | .symbol s => .symbol s
  | .array _ vs => .array 0 (contents vs)
  | .object o => .object o
  | .module m => .module m
  | .method m => .method m
  | .block ⟨id, body, receiver, scope?, m, v⟩ => .block ⟨id, body, content receiver, scope?, m, v⟩

def contents : List Value → List Value
  | [] => []
  | v :: vs => content v :: contents vs

end

theorem contents_eq_map (vs : List Value) : contents vs = vs.map content := by
  induction vs with
  | nil => rfl
  | cons v vs ih => rw [contents, ih, List.map_cons]

/-- The same value, but for the numbers of arrays. -/
def Alike (v w : Value) : Prop := v.content = w.content

@[refl] theorem Alike.refl (v : Value) : v.Alike v := rfl

mutual

theorem text_content : ∀ v : Value, v.content.text = v.text
  | .nil | .bool _ | .fixnum _ | .float _ | .string _ | .symbol _ | .object _ | .module _
  | .method _ | .block _ => rfl
  | .array _ vs => by simp only [content, text, textAll_contents vs]

theorem textAll_contents : ∀ vs : List Value, textAll (contents vs) = textAll vs
  | [] => rfl
  | v :: vs => by simp only [contents, textAll, text_content v, textAll_contents vs]

end

theorem class_content (v : Value) : v.content.class = v.class := by
  cases v with
  | bool b => cases b <;> rfl
  | _ => rfl

theorem isTruthy_content (v : Value) : v.content.isTruthy = v.isTruthy := by
  cases v with
  | bool b => cases b <;> rfl
  | _ => rfl

theorem module?_content (v : Value) : v.content.module? = v.module? := by cases v <;> rfl

end Value

def BlockOf.content (b : Block) : Block := { b with receiver := b.receiver.content }

theorem Value.content_block (b : Block) : (Value.block b).content = .block b.content := by
  cases b
  rfl

namespace Value.Alike

variable {v w : Value}

theorem class_eq (h : v.Alike w) : v.class = w.class := by
  rw [← class_content v, h, class_content]

theorem isTruthy_eq (h : v.Alike w) : v.isTruthy = w.isTruthy := by
  rw [← isTruthy_content v, h, isTruthy_content]

theorem module?_eq (h : v.Alike w) : v.module? = w.module? := by
  rw [← module?_content v, h, module?_content]

/-- Values alike are of one form, and differ at most inside arrays and blocks. -/
theorem cases (h : v.Alike w) :
    v = w ∨ (∃ i j vs ws, v = .array i vs ∧ w = .array j ws ∧ vs.map content = ws.map content) ∨
      ∃ b c : Block, v = .block b ∧ w = .block c ∧ b.content = c.content := by
  unfold Alike at h
  cases v <;> cases w <;> simp only [content, reduceCtorEq] at h
  case nil.nil => exact .inl rfl
  case array.array =>
    simp only [array.injEq, contents_eq_map, true_and] at h
    exact .inr (.inl ⟨_, _, _, _, rfl, rfl, h⟩)
  case block.block =>
    rw [block.injEq] at h
    exact .inr (.inr ⟨_, _, rfl, rfl, h⟩)
  all_goals exact .inl (congrArg _ (by injection h))

end Value.Alike

/-! ### Failures -/

namespace TypeFault

def content : TypeFault → TypeFault
  | .expects v kind got => .expects v kind got.content
  | .notModuleBody v => .notModuleBody v.content
  | .notModule v => .notModule v.content
  | f => f

theorem message_content (f : TypeFault) : f.content.message = f.message := by
  cases f with
  | expects v kind got =>
    exact congrArg (v.text ++ " expects " ++ kind.demand ++ ", got " ++ ·) got.text_content
  | notModuleBody v => exact congrArg (· ++ " is not a module body") v.text_content
  | notModule v => exact congrArg (· ++ " is not a class/module") v.text_content
  | _ => rfl

end TypeFault

namespace Failure

def content : Failure → Failure
  | .type fault => .type fault.content
  | .raised v => .raised v.content
  | f => f

theorem text_content (f : Failure) : f.content.text = f.text := by
  cases f with
  | type fault => exact congrArg ("TypeError: " ++ ·) fault.message_content
  | raised v => exact congrArg ("RuntimeError: " ++ ·) v.text_content
  | _ => rfl

theorem message_content (f : Failure) : f.content.message = f.message := by
  cases f with
  | type fault => exact fault.message_content
  | raised v => exact v.text_content
  | _ => rfl

def Alike (f g : Failure) : Prop := f.content = g.content

@[refl] theorem Alike.refl (f : Failure) : f.Alike f := rfl

theorem Alike.text_eq {f g : Failure} (h : f.Alike g) : f.text = g.text := by
  rw [← text_content f, h, text_content]

theorem Alike.message_eq {f g : Failure} (h : f.Alike g) : f.message = g.message := by
  rw [← message_content f, h, message_content]

end Failure

end ObjectIr
