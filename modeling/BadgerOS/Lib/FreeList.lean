import Mathlib

/-!
# Singly linked lists threaded through a memory

`Threaded next stop head xs` says that the nodes `xs` are linked from `head` and
that the last of them points on to `stop`. Unlike a null pointer, `stop` is never
compared with: who uses the list counts its nodes.
-/

namespace LinkedMemory

variable {α : Type} {next next' : α → α} {stop head x : α} {xs : List α}

def Threaded (next : α → α) (stop : α) : α → List α → Prop
  | head, [] => head = stop
  | head, x :: xs => head = x ∧ Threaded next stop (next x) xs

theorem Threaded.frame (h : Threaded next stop head xs) (same : ∀ x ∈ xs, next' x = next x) :
    Threaded next' stop head xs := by
  induction xs generalizing head with
  | nil => exact h
  | cons x xs ih =>
    obtain ⟨rfl, rest⟩ := h
    rw [List.forall_mem_cons] at same
    constructor
    · rfl
    · rw [same.1]
      exact ih rest same.2

/-- A new node in front of the list. -/
theorem Threaded.push [DecidableEq α] (h : Threaded next stop head xs) (new : x ∉ xs) :
    Threaded (Function.update next x head) stop x (x :: xs) := by
  constructor
  · rfl
  · rw [Function.update_self]
    apply h.frame
    intro y hy
    rw [Function.update_of_ne]
    rintro rfl
    exact new hy

end LinkedMemory
