import Mathlib.Data.List.Chain

/-!
# Stretches that tile an interval

The tokens of a pattern and the lines of a listing are stretches with a start
and a stop. They tile an interval when the first starts where the interval does,
each starts where the one before it stops, and the last stops where the interval
does.
-/

namespace PatternEngine

structure Tiles {α : Type} (start stop : α → Nat) (items : List α) (first last : Nat) : Prop where
  start_eq : ∀ a ∈ items.head?, start a = first
  abut : items.IsChain fun a next => stop a = start next
  stop_eq : items.getLast?.elim first stop = last

namespace Tiles
variable {α : Type} {start stop : α → Nat} {a : α} {items : List α} {last : Nat}

theorem nil (place : Nat) : Tiles start stop [] place place := ⟨nofun, .nil, rfl⟩

theorem cons (h : Tiles start stop items (stop a) last) :
    Tiles start stop (a :: items) (start a) last where
  start_eq := by
    rintro _ ⟨⟩
    rfl
  abut := h.abut.cons fun next hnext => (h.start_eq next hnext).symm
  stop_eq := by
    rw [List.getLast?_cons, ← h.stop_eq]
    cases items.getLast? <;> rfl

end Tiles

end PatternEngine
