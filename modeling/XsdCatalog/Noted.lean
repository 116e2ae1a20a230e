import XsdCatalog.Diagnostic

/-!
# Values with diagnostics

A computation that always has a result and notes problems on the way, in the order in which they
arise. What is noted never changes a result (`value_bind`, `notes_bind`).
-/

namespace XsdCatalog

structure Noted (α : Type) where
  value : α
  notes : List Diagnostic := []

namespace Noted

variable {α β : Type}

/-- Two rows of notes one behind the other. Nothing is copied if the second one is empty. -/
def join (before : List Diagnostic) : List Diagnostic → List Diagnostic
  | [] => before
  | after => before ++ after

private theorem join_eq (before after : List Diagnostic) : join before after = before ++ after := by
  cases after with
  | nil => exact (List.append_nil before).symm
  | cons => rfl

theorem eq_of_value_of_notes {x y : Noted α} (hvalue : x.value = y.value)
    (hnotes : x.notes = y.notes) : x = y := by
  cases x
  cases y
  cases hvalue
  cases hnotes
  rfl

instance : Monad Noted where
  pure a := ⟨a, []⟩
  bind x f :=
    let y := f x.value
    ⟨y.value, join x.notes y.notes⟩

/-- Notes one problem. -/
def note (d : Diagnostic) : Noted Unit :=
  ⟨(), [d]⟩

/-- Notes a problem if there is one. -/
def noteIf (condition : Bool) (d : Diagnostic) : Noted Unit :=
  if condition then note d else pure ()

@[simp] theorem value_pure (a : α) : (pure a : Noted α).value = a := rfl

@[simp] theorem notes_pure (a : α) : (pure a : Noted α).notes = [] := rfl

@[simp] theorem value_bind (x : Noted α) (f : α → Noted β) :
    (x >>= f).value = (f x.value).value := rfl

@[simp] theorem notes_bind (x : Noted α) (f : α → Noted β) :
    (x >>= f).notes = x.notes ++ (f x.value).notes :=
  join_eq _ _

@[simp] theorem value_map (f : α → β) (x : Noted α) : (f <$> x).value = f x.value := rfl

@[simp] theorem notes_map (f : α → β) (x : Noted α) : (f <$> x).notes = x.notes := rfl

end Noted

end XsdCatalog
