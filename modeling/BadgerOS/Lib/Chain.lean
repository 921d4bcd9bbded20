import Mathlib

/-!
# Doubly linked lists threaded through a memory

A memory maps each address to a link of two addresses, and `nil` ends a list.
`Chain mem nil before head xs` says that the nodes `xs` are threaded from
`head`, that the first of them points back to `before`, and that the last of
them points on to `nil`.

* `unlink_chain`, `link_chain`: taking a node out and putting one in front;
* `Chain.frame`: a list does not see writes to other nodes;
* `Chain.next_ne`, `Chain.prev_ne`, `Chain.prev_ne_next`: the neighbours of a
  node in a list without repetition;
* `follow`, `follow_chain`: the list read back from the memory.
-/

namespace LinkedMemory

open Function List

structure Link (α : Type) where
  prev : α
  next : α
  deriving DecidableEq, Repr

variable {α : Type}

/-- The nodes `xs`, linked both ways from `head`, after the node `before`. -/
def Chain (mem : α → Link α) (nil : α) : α → α → List α → Prop
  | _, head, [] => head = nil
  | before, head, x :: xs =>
    head = x ∧ x ≠ nil ∧ (mem x).prev = before ∧ Chain mem nil x (mem x).next xs

variable {mem : α → Link α} {before head nil : α} {xs : List α}

theorem Chain.frame {mem' : α → Link α} (h : Chain mem nil before head xs)
    (same : ∀ x ∈ xs, mem' x = mem x) : Chain mem' nil before head xs := by
  induction xs generalizing before head with
  | nil => exact h
  | cons x xs ih =>
    obtain ⟨hh, hn, hp, rest⟩ := h
    have hx := same x mem_cons_self
    refine ⟨hh, hn, hx ▸ hp, ?_⟩
    rw [hx]
    exact ih rest fun y hy => same y (mem_cons_of_mem x hy)

variable {x : α}

section

variable (h : Chain mem nil before head xs)
include h

/-- A node of the list, between those before it and those after it. -/
theorem Chain.node (hx : x ∈ xs) : ∃ as bs, xs = as ++ x :: bs ∧ x ≠ nil ∧
    (mem x).prev ∈ before :: as ∧ Chain mem nil x (mem x).next bs := by
  induction xs generalizing before head with
  | nil => cases hx
  | cons y ys ih =>
    obtain ⟨_, hn, hp, rest⟩ := h
    rcases mem_cons.mp hx with rfl | hx
    · exact ⟨[], ys, rfl, hn, hp ▸ mem_cons_self, rest⟩
    · obtain ⟨as, bs, rfl, hn, prev, next⟩ := ih rest hx
      exact ⟨y :: as, bs, rfl, hn, mem_cons_of_mem _ prev, next⟩

theorem Chain.ne_nil (hx : x ∈ xs) : x ≠ nil := by
  obtain ⟨_, _, _, hn, _⟩ := h.node hx
  exact hn

theorem Chain.head_eq_nil : head = nil ↔ xs = [] := by
  cases xs with
  | nil => simpa [Chain] using h
  | cons x xs =>
    obtain ⟨rfl, hn, _, _⟩ := h
    simp [hn]

theorem Chain.head_mem (hn : head ≠ nil) : ∃ ys, xs = head :: ys := by
  cases xs with
  | nil => exact absurd h hn
  | cons x xs =>
    obtain ⟨rfl, _⟩ := h
    exact ⟨xs, rfl⟩

theorem Chain.next_mem (hx : x ∈ xs) : (mem x).next = nil ∨ (mem x).next ∈ xs := by
  obtain ⟨as, bs, rfl, -, -, rest⟩ := h.node hx
  cases bs with
  | nil => exact .inl rest
  | cons z zs => exact .inr (by simp [rest.1])

theorem Chain.prev_mem (hx : x ∈ xs) : (mem x).prev = before ∨ (mem x).prev ∈ xs := by
  obtain ⟨as, bs, rfl, -, prev, -⟩ := h.node hx
  exact (mem_cons.mp prev).imp_right (mem_append_left _)

theorem Chain.next_ne (hu : xs.Nodup) (hx : x ∈ xs) : (mem x).next ≠ x := by
  obtain ⟨as, bs, rfl, hn, -, rest⟩ := h.node hx
  intro he
  cases bs with
  | nil => exact hn (he.symm.trans rest)
  | cons z zs => exact (nodup_cons.mp (nodup_append.mp hu).2.1).1 (by simp [← rest.1, he])

theorem Chain.prev_ne (hb : before ∉ xs) (hu : xs.Nodup) (hx : x ∈ xs) :
    (mem x).prev ≠ x := by
  obtain ⟨as, bs, rfl, -, prev, -⟩ := h.node hx
  intro he
  rw [he] at prev
  rcases mem_cons.mp prev with rfl | twice
  · exact hb hx
  · exact (nodup_append.mp hu).2.2 x twice x mem_cons_self rfl

theorem Chain.prev_ne_next (hb : before ∉ xs) (hu : xs.Nodup) (hx : x ∈ xs)
    (hn : (mem x).next ≠ nil) : (mem x).prev ≠ (mem x).next := by
  obtain ⟨as, bs, rfl, -, prev, rest⟩ := h.node hx
  obtain ⟨zs, rfl⟩ := rest.head_mem hn
  intro he
  rw [he] at prev
  rcases mem_cons.mp prev with same | twice
  · exact hb (by simp [← same])
  · exact (nodup_append.mp hu).2.2 _ twice _ (by simp) rfl

end

variable [DecidableEq α]

/-- Take the node `x` out: its neighbours are joined, and the head moves on if
`x` was the first. -/
def unlink (mem : α → Link α) (nil head x : α) : (α → Link α) × α :=
  let link := mem x
  let mem := if link.next ≠ nil then
      update mem link.next { mem link.next with prev := link.prev } else mem
  if link.prev ≠ nil then
    (update mem link.prev { mem link.prev with next := link.next }, head)
  else (mem, link.next)

/-- Put the node `x` in front. -/
def link (mem : α → Link α) (nil head x : α) : α → Link α :=
  let mem := update mem x ⟨nil, head⟩
  if head ≠ nil then update mem head { mem head with prev := x } else mem

/-- Only the neighbours of the node taken out are written. -/
theorem unlink_frame (mem : α → Link α) (nil head x y : α)
    (hn : y = (mem x).next → y = nil) (hp : y = (mem x).prev → y = nil) :
    (unlink mem nil head x).1 y = mem y := by
  unfold unlink
  by_cases h1 : (mem x).next = nil <;> by_cases h2 : (mem x).prev = nil <;>
    simp [h1, h2]
  · rw [update_of_ne (fun he => h2 (by rw [← he]; exact hp he))]
  · rw [update_of_ne (fun he => h1 (by rw [← he]; exact hn he))]
  · rw [update_of_ne (fun he => h2 (by rw [← he]; exact hp he)),
      update_of_ne (fun he => h1 (by rw [← he]; exact hn he))]

theorem unlink_head (mem : α → Link α) (nil head x : α) :
    (unlink mem nil head x).2 = if (mem x).prev ≠ nil then head else (mem x).next := by
  unfold unlink
  by_cases h2 : (mem x).prev = nil <;> simp [h2]

/-- The links of the two neighbours after `x` is taken out. -/
theorem unlink_next_prev (head : α) (hn : (mem x).next ≠ nil)
    (hd : (mem x).prev ≠ (mem x).next) :
    (unlink mem nil head x).1 (mem x).next = ⟨(mem x).prev, (mem (mem x).next).next⟩ := by
  unfold unlink
  by_cases h2 : (mem x).prev = nil
  · simp [hn, h2]
  · simp [hn, h2, update_of_ne (Ne.symm hd)]

theorem unlink_prev_next (head : α) (hp : (mem x).prev ≠ nil)
    (hd : (mem x).next ≠ nil → (mem x).prev ≠ (mem x).next) :
    (unlink mem nil head x).1 (mem x).prev = ⟨(mem (mem x).prev).prev, (mem x).next⟩ := by
  unfold unlink
  by_cases h1 : (mem x).next = nil
  · simp [h1, hp]
  · simp [h1, hp, update_of_ne (hd h1)]

/-- Taking `x` out of the part of a list that follows `before`. -/
theorem unlink_chain_after (top : α) (h : Chain mem nil before head xs) (hb : before ∉ xs)
    (hu : xs.Nodup) (hx : x ∈ xs) :
    Chain (unlink mem nil top x).1 nil before (if x = head then (mem x).next else head)
      (xs.erase x) ∧
    (before ≠ nil → (mem before).next = head → (unlink mem nil top x).1 before =
        ⟨(mem before).prev, if x = head then (mem x).next else head⟩) := by
  induction xs generalizing before head with
  | nil => cases hx
  | cons y ys ih =>
    have whole := h
    obtain ⟨rfl, hy, hp, rest⟩ := h
    obtain ⟨hny, hus⟩ := nodup_cons.mp hu
    by_cases hxy : x = head
    · subst hxy
      have apart := whole.prev_ne_next hb hu hx
      simp only [if_true, erase_cons_head]
      constructor
      · cases ys with
        | nil => exact rest
        | cons z zs =>
          obtain ⟨hz, hzn, hzp, tail⟩ := rest
          have hnext := unlink_next_prev top (by rw [hz]; exact hzn) (apart (by rw [hz]; exact hzn))
          rw [hz] at hnext
          refine ⟨hz, hzn, by rw [hnext, hp], ?_⟩
          rw [hnext]
          apply tail.frame
          intro w hw
          apply unlink_frame
          · intro he
            exact absurd hw (by rw [he, hz]; exact (nodup_cons.mp hus).1)
          · intro he
            exact absurd (mem_cons_of_mem x (mem_cons_of_mem z hw)) (by rw [he, hp]; exact hb)
      · intro hbn hbh
        have := unlink_prev_next top (by rw [hp]; exact hbn) apart
        rwa [hp] at this
    · have hx' := (mem_cons.mp hx).resolve_left hxy
      obtain ⟨chain, upd⟩ := ih rest hny hus hx'
      have hup := upd hy rfl
      simp only [hxy, if_false]
      rw [erase_cons_tail (by simpa using Ne.symm hxy)]
      refine ⟨⟨rfl, hy, by rw [hup]; exact hp, by rw [hup]; exact chain⟩, ?_⟩
      intro hbn hbh
      rw [unlink_frame]
      · rw [← hbh]
      · intro he
        rcases rest.next_mem hx' with hm | hm
        · rw [he]; exact hm
        · exact absurd (mem_cons_of_mem head hm) (by rw [← he]; exact hb)
      · intro he
        rcases rest.prev_mem hx' with hm | hm
        · exact absurd (by simp [he, hm]) hb
        · exact absurd (mem_cons_of_mem head hm) (by rw [← he]; exact hb)

section

variable (h : Chain mem nil nil head xs)
include h

/-- **Taking a node out.** The list loses exactly that node. -/
theorem unlink_chain (hu : xs.Nodup) (hx : x ∈ xs) :
    Chain (unlink mem nil head x).1 nil nil (unlink mem nil head x).2 (xs.erase x) := by
  have hb : nil ∉ xs := fun hm => h.ne_nil hm rfl
  have key := (unlink_chain_after head h hb hu hx).1
  have hhead : (unlink mem nil head x).2 = if x = head then (mem x).next else head := by
    rw [unlink_head]
    cases xs with
    | nil => cases hx
    | cons y ys =>
      obtain ⟨rfl, hy, hp, rest⟩ := h
      by_cases hxy : x = head
      · subst hxy; simp [hp]
      · have hx' := (mem_cons.mp hx).resolve_left hxy
        have hne : (mem x).prev ≠ nil := by
          intro he
          rcases rest.prev_mem hx' with hm | hm
          · exact hy (hm.symm.trans he)
          · exact hb (mem_cons_of_mem head (he ▸ hm))
        simp [hxy, hne]
  rw [hhead]
  exact key

/-- A node outside the list is not written when one is taken out. -/
theorem unlink_outside {y : α} (hx : x ∈ xs) (hy : y ∉ xs) :
    (unlink mem nil head x).1 y = mem y := by
  apply unlink_frame
  · intro he
    exact (h.next_mem hx).elim (he ▸ ·) fun hm => absurd (he ▸ hm) hy
  · intro he
    exact (h.prev_mem hx).elim (he ▸ ·) fun hm => absurd (he ▸ hm) hy

/-- **Putting a node in front.** -/
theorem link_chain (hu : xs.Nodup) (hn : x ≠ nil) (hx : x ∉ xs) :
    Chain (link mem nil head x) nil nil x (x :: xs) := by
  cases xs with
  | nil =>
    have hh : head = nil := h
    simp [Chain, link, hh, hn]
  | cons y ys =>
    obtain ⟨rfl, hy, hp, rest⟩ := h
    have hxy : x ≠ head := fun he => hx (by simp [he])
    have hlx : link mem nil head x x = ⟨nil, head⟩ := by
      simp [link, hy, update_of_ne hxy]
    have hly : link mem nil head x head = ⟨x, (mem head).next⟩ := by
      simp [link, hy, update_of_ne (Ne.symm hxy)]
    refine ⟨rfl, hn, by rw [hlx], ?_⟩
    rw [hlx]
    refine ⟨rfl, hy, by rw [hly], ?_⟩
    rw [hly]
    apply rest.frame
    intro w hw
    have hwx : w ≠ x := fun he => hx (by simp [← he, hw])
    have hwy : w ≠ head := fun he => (nodup_cons.mp hu).1 (he ▸ hw)
    simp [link, hy, update_of_ne hwy, update_of_ne hwx]

theorem link_outside {y : α} (hyx : y ≠ x) (hy : y ∉ xs) : link mem nil head x y = mem y := by
  unfold link
  by_cases hn : head = nil
  · simp [hn, update_of_ne hyx]
  · obtain ⟨ys, rfl⟩ := h.head_mem hn
    have hyh : y ≠ head := fun he => hy (by simp [he])
    simp [hn, update_of_ne hyx, update_of_ne hyh]

end

/-- The nodes met from `head` along the forward links, for at most `n` steps. -/
def follow (mem : α → Link α) (nil : α) : Nat → α → List α
  | 0, _ => []
  | n + 1, head => if head = nil then [] else head :: follow mem nil n (mem head).next

theorem follow_chain {n : Nat} (h : Chain mem nil before head xs)
    (hn : xs.length ≤ n) : follow mem nil n head = xs := by
  induction xs generalizing before head n with
  | nil =>
    have hh : head = nil := h
    cases n <;> simp [follow, hh]
  | cons x xs ih =>
    obtain ⟨rfl, hx, _, rest⟩ := h
    cases n with
    | zero => simp at hn
    | succ n => simp [follow, hx, ih rest (by simpa using hn)]

end LinkedMemory
