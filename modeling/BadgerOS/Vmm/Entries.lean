import BadgerOS.Vmm.Space
import BadgerOS.Lib.Intervals

/-!
# Lists of entries

What the loops of `map.rs` over the list of entries do to the flags of each
address.
-/

namespace BadgerOS.Vmm

open Intervals Option List

/-- The list is sorted by address, with page-aligned, non-empty and disjoint ranges. -/
structure WellFormed (map : List MapEntry) : Prop where
  ordered : Ordered MapEntry.start MapEntry.stop map
  aligned : ∀ e ∈ map, e.start % pageSize = 0 ∧ e.stop % pageSize = 0

abbrev MapEntry.flags (e : MapEntry) : ProtFlags × MapFlags :=
  (e.inner.protFlags, e.inner.mapFlags)

/-- The entry around an address. -/
abbrev entryAt (map : List MapEntry) (v : Nat) : Option MapEntry :=
  find MapEntry.start MapEntry.stop map v

/-- The flat view of a list of entries. -/
def flagsAt (map : List MapEntry) (v : Nat) : Option (ProtFlags × MapFlags) :=
  (entryAt map v).map MapEntry.flags

abbrev Around (v : Nat) (e : MapEntry) : Prop := Intervals.Around MapEntry.start MapEntry.stop v e

theorem wellFormed_nil : WellFormed [] := ⟨ordered_nil, by simp⟩

variable {e : MapEntry} {start stop hint size : Nat}

variable {map map' : List MapEntry} {t t' : Nat} {protFlags : ProtFlags} {g : MapEntry → MapEntry}

theorem wellFormed_cons : WellFormed (e :: map) ↔
    (e.start < e.stop ∧ e.start % pageSize = 0 ∧ e.stop % pageSize = 0) ∧
    (∀ f ∈ map, e.stop ≤ f.start) ∧ WellFormed map := by
  constructor
  · intro h
    obtain ⟨hne, before, rest⟩ := ordered_cons.mp h.ordered
    have ha := h.aligned e mem_cons_self
    exact ⟨⟨hne, ha.1, ha.2⟩, before, rest, fun f hf => h.aligned f (mem_cons_of_mem _ hf)⟩
  · intro ⟨⟨hne, hs, hz⟩, before, h⟩
    refine ⟨ordered_cons.mpr ⟨hne, before, h.ordered⟩, fun f hf => ?_⟩
    obtain rfl | hf := mem_cons.mp hf
    · exact ⟨hs, hz⟩
    · exact h.aligned f hf

/-- The page of an address in an entry is a page of the entry. -/
theorem WellFormed.page_offset (wf : WellFormed map) (he : e ∈ map)
    (vaddr : Nat) : (pageFloor vaddr - e.start) % pageSize = 0 := by
  have := (wf.aligned e he).1
  simp only [pageFloor, pageSize] at *
  omega

variable {env : Env}

theorem MapEntryInner.newAmap_ok {amap : Option AnonMap} {arc : Option (Arc AnonMap)}
    (h : newAmap env amap t = (.ok arc, t')) : arc.map (·.val) = amap := by
  unfold newAmap tryAlloc at h
  cases amap with
  | none =>
    cases h
    rfl
  | some amap =>
    simp only at h
    split at h
    · cases h
    · cases h
      rfl

/-- Both halves of a split keep everything but the overlay. -/
theorem MapEntryInner.split_ok {self first second : MapEntryInner} {offset : Nat}
    (h : self.split env offset t = (.ok (first, second), t')) :
    ∃ amap0 amap1, first = { self with amap := amap0 } ∧
      second = { self with amap := amap1 } := by
  unfold split at h
  cases ha : self.amap with
  | none =>
    rw [ha] at h
    cases h
    exact ⟨_, _, rfl, rfl⟩
  | some amap =>
    rw [ha] at h
    simp only at h
    split at h
    · cases h
    · split at h
      · cases h
      · split at h
        · cases h
        · cases h
          exact ⟨_, _, rfl, rfl⟩

/-- What the loop of `split` does to the list: entries around the threshold may
be cut there. -/
inductive Splits (threshold : Nat) : List MapEntry → List MapEntry → Prop
  | same (map : List MapEntry) : Splits threshold map map
  | keep {e : MapEntry} {rest rest' : List MapEntry} (h : Splits threshold rest rest') :
      Splits threshold (e :: rest) (e :: rest')
  | cut {e : MapEntry} {rest rest' : List MapEntry} (ptr : Nat) (amap0 amap1 : Option (Arc AnonMap))
      (inside : e.start < threshold ∧ threshold < e.stop) (h : Splits threshold rest rest') :
      Splits threshold (e :: rest)
        ({ e with stop := threshold, inner := { e.inner with amap := amap0 } } ::
          ⟨ptr, threshold, e.stop, { e.inner with amap := amap1 }⟩ :: rest')

/-- An entry does not cross the threshold. -/
abbrev Beside (threshold : Nat) (e : MapEntry) : Prop :=
  e.stop ≤ threshold ∨ threshold ≤ e.start

theorem splitEntries_splits {threshold : Nat} : ∀ {t t' : Nat} {r : Except Errno Unit}
    {map' : List MapEntry}, splitEntries env threshold map t = (r, map', t') →
    Splits threshold map map' ∧ (r = .ok () → ∀ e ∈ map', Beside threshold e) := by
  induction map with
  | nil =>
    intro t t' r map' h
    cases h
    exact ⟨.same [], by simp⟩
  | cons e rest ih =>
    intro t t' r map' h
    simp only [splitEntries] at h
    split at h
    · rename_i inside
      split at h
      · cases h
        exact ⟨.same _, by simp⟩
      · rename_i first second t₁ hs
        split at h
        · cases h
          exact ⟨.same _, by simp⟩
        · cases h
          obtain ⟨amap0, amap1, rfl, rfl⟩ := MapEntryInner.split_ok hs
          obtain ⟨splits, beside⟩ := ih (Prod.mk.eta).symm
          refine ⟨.cut _ amap0 amap1 inside splits, fun ok f hf => ?_⟩
          obtain rfl | hf := mem_cons.mp hf
          · exact .inl le_rfl
          · obtain rfl | hf := mem_cons.mp hf
            · exact .inr le_rfl
            · exact beside ok f hf
    · cases h
      obtain ⟨splits, beside⟩ := ih (Prod.mk.eta).symm
      refine ⟨.keep splits, fun ok f hf => ?_⟩
      obtain rfl | hf := mem_cons.mp hf
      · omega
      · exact beside ok f hf

namespace Splits

variable {threshold : Nat}

section

variable (h : Splits threshold map map')
include h

/-- Every new entry is part of an old one. -/
theorem sub : ∀ e' ∈ map', ∃ e ∈ map, e.start ≤ e'.start ∧ e'.stop ≤ e.stop := by
  induction h with
  | same => exact fun e he => ⟨e, he, le_rfl, le_rfl⟩
  | keep _ ih =>
    intro e' he'
    obtain rfl | he' := mem_cons.mp he'
    · exact ⟨e', mem_cons_self, le_rfl, le_rfl⟩
    · obtain ⟨e, he, hsub⟩ := ih e' he'
      exact ⟨e, mem_cons_of_mem _ he, hsub⟩
  | @cut e _ _ _ _ _ inside _ ih =>
    intro e' he'
    obtain rfl | he' := mem_cons.mp he'
    · exact ⟨e, mem_cons_self, le_rfl, inside.2.le⟩
    · obtain rfl | he' := mem_cons.mp he'
      · exact ⟨e, mem_cons_self, inside.1.le, le_rfl⟩
      · obtain ⟨f, hf, hsub⟩ := ih e' he'
        exact ⟨f, mem_cons_of_mem _ hf, hsub⟩

theorem wellFormed (ht : threshold % pageSize = 0) (wf : WellFormed map) : WellFormed map' := by
  induction h with
  | same => exact wf
  | keep h ih =>
    obtain ⟨he, before, rest⟩ := wellFormed_cons.mp wf
    refine wellFormed_cons.mpr ⟨he, fun f hf => ?_, ih rest⟩
    obtain ⟨g, hg, hsub⟩ := h.sub f hf
    have := before g hg
    omega
  | @cut e _ rest' _ _ _ inside h ih =>
    obtain ⟨⟨hne, hs, hz⟩, before, rest⟩ := wellFormed_cons.mp wf
    have after : ∀ f ∈ rest', e.stop ≤ f.start := by
      intro f hf
      obtain ⟨g, hg, hsub⟩ := h.sub f hf
      exact (before g hg).trans hsub.1
    refine wellFormed_cons.mpr ⟨⟨inside.1, hs, ht⟩, fun f hf => ?_,
      wellFormed_cons.mpr ⟨⟨inside.2, ht, hz⟩, after, ih rest⟩⟩
    obtain rfl | hf := mem_cons.mp hf
    · exact le_rfl
    · exact (inside.2.le).trans (after f hf)

/-- Every address keeps its flags. -/
theorem cover {v : Nat} : ∀ e ∈ map, Around v e → ∃ e' ∈ map', Around v e' ∧
    e'.flags = e.flags := by
  induction h with
  | same => exact fun e he ha => ⟨e, he, ha, rfl⟩
  | keep _ ih =>
    intro e he ha
    obtain rfl | he := mem_cons.mp he
    · exact ⟨e, mem_cons_self, ha, rfl⟩
    · obtain ⟨e', he', found⟩ := ih e he ha
      exact ⟨e', mem_cons_of_mem _ he', found⟩
  | cut _ _ _ inside _ ih =>
    intro e he ha
    obtain rfl | he := mem_cons.mp he
    · by_cases hv : v < threshold
      · exact ⟨_, mem_cons_self, ⟨ha.1, hv⟩, rfl⟩
      · exact ⟨_, mem_cons_of_mem _ mem_cons_self, ⟨Nat.le_of_not_lt hv, ha.2⟩, rfl⟩
    · obtain ⟨e', he', found⟩ := ih e he ha
      exact ⟨e', mem_cons_of_mem _ (mem_cons_of_mem _ he'), found⟩

theorem flagsAt_eq (ht : threshold % pageSize = 0) (wf : WellFormed map) (v : Nat) :
    flagsAt map' v = flagsAt map v := by
  apply map_find_eq wf.ordered (h.wellFormed ht wf).ordered
  · exact h.cover
  · intro e' he' ha
    obtain ⟨e, he, hsub⟩ := h.sub e' he'
    exact ⟨e, he, hsub.1.trans ha.1, ha.2.trans_le hsub.2⟩

/-- A split at one threshold brings no entry across another. -/
theorem beside {other : Nat} (hb : ∀ e ∈ map, Beside other e) : ∀ e ∈ map',
    Beside other e := by
  intro e' he'
  obtain ⟨e, he, hsub⟩ := h.sub e' he'
  have := hb e he
  omega

end

end Splits

/-- The loop of `remove_mappings` stops at the first entry behind the bounds; in
a sorted list there is nothing to remove after it. -/
theorem mem_removeEntries (wf : WellFormed map) :
    (e ∈ (removeEntries start stop map).1 ↔ e ∈ map ∧
    ¬ (start ≤ e.start ∧ e.start < stop)) ∧
    (e ∈ (removeEntries start stop map).2 ↔ e ∈ map ∧ start ≤ e.start ∧
    e.start < stop) := by
  induction map with
  | nil => simp [removeEntries]
  | cons f rest ih =>
    obtain ⟨⟨hne, _, _⟩, before, wf'⟩ := wellFormed_cons.mp wf
    obtain ⟨kept, removed⟩ := ih wf'
    simp only [removeEntries]
    by_cases hf : f.start ≥ stop
    · rw [if_pos hf]
      have all : ∀ g ∈ f :: rest, ¬ g.start < stop := by
        intro g hg
        obtain rfl | hg := mem_cons.mp hg
        · omega
        · have := before g hg
          omega
      constructor
      · exact ⟨fun h => ⟨h, fun hc => all e h hc.2⟩, fun h => h.1⟩
      · exact ⟨fun h => absurd h not_mem_nil, fun h => absurd h.2.2 (all e h.1)⟩
    · rw [if_neg hf]
      by_cases hin : start ≤ f.start ∧ f.start < stop
      · rw [if_pos hin]
        simp only [mem_cons, kept, removed]
        constructor
        · constructor
          · exact fun h => ⟨.inr h.1, h.2⟩
          · rintro ⟨rfl | h, hout⟩
            · exact absurd hin hout
            · exact ⟨h, hout⟩
        · constructor
          · rintro (rfl | h)
            · exact ⟨.inl rfl, hin⟩
            · exact ⟨.inr h.1, h.2⟩
          · rintro ⟨rfl | h, hb⟩
            · exact .inl rfl
            · exact .inr ⟨h, hb⟩
      · rw [if_neg hin]
        simp only [mem_cons, kept, removed]
        constructor
        · constructor
          · rintro (rfl | h)
            · exact ⟨.inl rfl, hin⟩
            · exact ⟨.inr h.1, h.2⟩
          · rintro ⟨rfl | h, hout⟩
            · exact .inl rfl
            · exact .inr ⟨h, hout⟩
        · constructor
          · exact fun h => ⟨.inr h.1, h.2⟩
          · rintro ⟨rfl | h, hb⟩
            · exact absurd hb hin
            · exact ⟨h, hb⟩

theorem removeEntries_sublist (start stop : Nat) (map : List MapEntry) :
    (removeEntries start stop map).1.Sublist map := by
  induction map with
  | nil => exact .slnil
  | cons e rest ih =>
    simp only [removeEntries]
    split
    · exact Sublist.refl _
    · split
      · exact ih.cons e
      · exact ih.cons_cons e

theorem WellFormed.sublist (wf : WellFormed map) (sub : map'.Sublist map) : WellFormed map' :=
  ⟨wf.ordered.sublist sub, fun e he => wf.aligned e (sub.subset he)⟩

/-- Removing the entries of bounds that no entry crosses clears exactly the bounds. -/
theorem flagsAt_removeEntries (wf : WellFormed map) (hs : ∀ e ∈ map, Beside start e)
    (hz : ∀ e ∈ map, Beside stop e) (v : Nat) :
    flagsAt (removeEntries start stop map).1 v =
      if start ≤ v ∧ v < stop then none else flagsAt map v := by
  have wf' := wf.sublist (removeEntries_sublist start stop map)
  split
  · have hnone : entryAt (removeEntries start stop map).1 v = none := by
      rw [find_eq_none]
      intro e he ha
      obtain ⟨hm, hout⟩ := (mem_removeEntries wf).1.mp he
      have := hs e hm
      omega
    rw [flagsAt, hnone]
    rfl
  · rename_i hv
    apply map_find_eq wf.ordered wf'.ordered
    · intro e he ha
      refine ⟨e, (mem_removeEntries wf).1.mpr ⟨he, fun hin => hv ?_⟩, ha, rfl⟩
      have := hz e he
      omega
    · exact fun e he ha => ⟨e, (removeEntries_sublist start stop map).subset he, ha⟩

variable {insert : MapEntry}

/-- Inserting an entry beside all others puts it in its place. -/
theorem insertEntry_spec : ∀ {prev : Nat}, WellFormed map → insert.start < insert.stop →
    prev ≤ insert.start →
    (∀ e ∈ map, e.stop ≤ insert.start ∨ insert.stop ≤ e.start) →
    ∃ map', insertEntry insert prev map = some map' ∧ Ordered MapEntry.start MapEntry.stop
      map' ∧ ∀ e, e ∈ map' ↔ e = insert ∨ e ∈ map := by
  induction map with
  | nil =>
    intro prev _ hne _ _
    exact ⟨[insert], rfl, ordered_cons.mpr ⟨hne, by simp, ordered_nil⟩, by simp⟩
  | cons f rest ih =>
    intro prev wf hne hprev hb
    obtain ⟨⟨hf, _, _⟩, before, wf'⟩ := wellFormed_cons.mp wf
    have next := debugAssert_of fun g hg => before g (mem_of_mem_head? hg)
    simp only [insertEntry, next, bind_eq_bind, bind_some]
    by_cases hfit : prev ≤ insert.start ∧ f.start ≥ insert.stop
    · rw [if_pos hfit]
      refine ⟨_, rfl, ordered_cons.mpr ⟨hne, fun g hg => ?_, wf.ordered⟩, by simp⟩
      obtain rfl | hg := mem_cons.mp hg
      · exact hfit.2
      · have := before g hg
        omega
    · rw [if_neg hfit]
      have hpast : f.stop ≤ insert.start := by
        have := hb f mem_cons_self
        omega
      obtain ⟨rest', run, ordered, mem⟩ :=
        ih wf' hne hpast fun e he => hb e (mem_cons_of_mem _ he)
      refine ⟨f :: rest', by rw [run]; rfl, ordered_cons.mpr ⟨hf,
        fun g hg => ?_, ordered⟩, ?_⟩
      · obtain rfl | hg := (mem g).mp hg
        · exact hpast
        · exact before g hg
      · simp only [mem_cons, mem]
        tauto

/-- The entry is put between the others. -/
theorem insertEntry_eq : ∀ {prev : Nat} {map' : List MapEntry}, insertEntry insert prev map =
    some map' → ∃ before after, map = before ++ after ∧ map' = before ++ insert :: after := by
  induction map with
  | nil =>
    intro prev map' h
    cases h
    exact ⟨[], [], rfl, rfl⟩
  | cons e rest ih =>
    intro prev map' h
    simp only [insertEntry, bind_eq_bind, bind_eq_some_iff] at h
    obtain ⟨_, _, h⟩ := h
    split at h
    · cases h
      exact ⟨[], e :: rest, rfl, rfl⟩
    · simp only [bind_eq_some_iff] at h
      obtain ⟨rest', inserted, h⟩ := h
      cases h
      obtain ⟨before, after, rfl, rfl⟩ := ih inserted
      exact ⟨e :: before, after, rfl, rfl⟩

theorem insertMapping_eq (h : insertMapping map insert = some map') :
    ∃ before after, map = before ++ after ∧ map' = before ++ insert :: after := by
  simp only [insertMapping, bind_eq_bind, bind_eq_some_iff] at h
  obtain ⟨_, _, _, _, h⟩ := h
  exact insertEntry_eq h

theorem insertMapping_spec (wf : WellFormed map) (hne : insert.start < insert.stop)
    (hs : insert.start % pageSize = 0) (hz : insert.stop % pageSize = 0)
    (hb : ∀ e ∈ map, e.stop ≤ insert.start ∨ insert.stop ≤ e.start) :
    ∃ map', insertMapping map insert = some map' ∧ WellFormed map' ∧
      (∀ e, e ∈ map' ↔ e = insert ∨ e ∈ map) ∧ ∀ v, flagsAt map' v =
        if insert.start ≤ v ∧ v < insert.stop then some insert.flags else flagsAt map v := by
  obtain ⟨map', run, ordered, mem⟩ := insertEntry_spec wf hne (Nat.zero_le _) hb
  have wf' : WellFormed map' := by
    refine ⟨ordered, fun e he => ?_⟩
    obtain rfl | he := (mem e).mp he
    · exact ⟨hs, hz⟩
    · exact wf.aligned e he
  refine ⟨map', ?_, wf', mem, fun v => ?_⟩
  · simp [insertMapping, debugAssert_of hs, debugAssert_of hz, run]
  · split
    · rename_i hv
      have found : entryAt map' v = some insert :=
        ordered.find_eq_some.mpr ⟨(mem insert).mpr (.inl rfl), hv⟩
      rw [flagsAt, found]
      rfl
    · rename_i hv
      apply map_find_eq wf.ordered ordered
      · exact fun e he ha => ⟨e, (mem e).mpr (.inr he), ha, rfl⟩
      · intro e he ha
        obtain rfl | he := (mem e).mp he
        · exact absurd ha hv
        · exact ⟨e, he, ha⟩

/-- The change that `protect` makes to an entry. -/
def reprotect (start stop : Nat) (protFlags : ProtFlags) (e : MapEntry) : MapEntry :=
  if start ≤ e.start ∧ e.start < stop
    then { e with inner := { e.inner with protFlags := protFlags } } else e

theorem reprotect_range (start stop : Nat) (protFlags : ProtFlags) (e : MapEntry) :
    (reprotect start stop protFlags e).start = e.start ∧
    (reprotect start stop protFlags e).stop = e.stop := by
  unfold reprotect
  split <;> exact ⟨rfl, rfl⟩

theorem protectEntries_eq (wf : WellFormed map) :
    protectEntries start stop protFlags map = map.map (reprotect start stop protFlags) := by
  induction map with
  | nil => rfl
  | cons e rest ih =>
    obtain ⟨⟨hne, _, _⟩, before, wf'⟩ := wellFormed_cons.mp wf
    simp only [protectEntries, map_cons]
    by_cases he : e.start ≥ stop
    · rw [if_pos he]
      have same : ∀ f ∈ e :: rest, reprotect start stop protFlags f = f := by
        intro f hf
        apply if_neg
        obtain rfl | hf := mem_cons.mp hf
        · omega
        · have := before f hf
          omega
      rw [same e mem_cons_self, map_congr_left fun f hf =>
        same f (List.mem_cons_of_mem _ hf), List.map_id']
    · rw [if_neg he, ih wf']
      rfl

section

variable (hg : ∀ e, (g e).start = e.start ∧ (g e).stop = e.stop)
include hg

theorem wellFormed_map : WellFormed (map.map g) ↔ WellFormed map := by
  have start := fun e => (hg e).1
  have stop := fun e => (hg e).2
  induction map with
  | nil => rfl
  | cons e rest ih =>
    simp [wellFormed_cons, start, stop, ih]

theorem entryAt_map (v : Nat) : entryAt (map.map g) v = (entryAt map v).map g := by
  unfold entryAt find
  rw [find?_map]
  congr 2
  funext e
  simp [(hg e).1, (hg e).2]

end

/-- Protecting bounds that no entry crosses changes the flags of exactly the
mapped addresses inside. -/
theorem flagsAt_protectEntries (wf : WellFormed map)
    (hs : ∀ e ∈ map, Beside start e) (hz : ∀ e ∈ map, Beside stop e) (v : Nat) :
    flagsAt (protectEntries start stop protFlags map) v =
      if start ≤ v ∧ v < stop then (flagsAt map v).map fun f => (protFlags, f.2)
      else flagsAt map v := by
  rw [protectEntries_eq wf]
  unfold flagsAt
  rw [entryAt_map (reprotect_range start stop protFlags)]
  cases hf : entryAt map v with
  | none => simp
  | some e =>
    obtain ⟨he, ha⟩ := wf.ordered.find_eq_some.mp hf
    have hse := hs e he
    have hze := hz e he
    by_cases hv : start ≤ v ∧ v < stop
    · have hin : start ≤ e.start ∧ e.start < stop := by omega
      simp [reprotect, hv, hin]
    · have hout : ¬ (start ≤ e.start ∧ e.start < stop) := by omega
      simp [reprotect, hv, hout]

/-- The gap at `gap.1` of size `gap.2` is page-aligned, starts inside the bounds
and no entry reaches into it. -/
structure IsGap (map : List MapEntry) (boundsStart : Nat) (gap : Nat × Nat) : Prop where
  inside : boundsStart ≤ gap.1
  startAligned : gap.1 % pageSize = 0
  stopAligned : (gap.1 + gap.2) % pageSize = 0
  clear : ∀ e ∈ map, e.stop ≤ gap.1 ∨ gap.1 + gap.2 ≤ e.start

/-- The gap search: `done` are the entries it has passed, which all end before
`prev`. It ends with all entries passed, or breaks with a gap that is closer
than anything further on. -/
theorem findGap_spec {boundsStart : Nat} (hb : boundsStart % pageSize = 0) (hsize : 0 < size)
    {rest : List MapEntry} : ∀ (done : List MapEntry) {closest closest' : Option (Nat × Nat)}
      {prev prev' : Nat}, WellFormed (done ++ rest) → (∀ e ∈ done, e.stop ≤ prev) →
    boundsStart ≤ prev → prev % pageSize = 0 →
    (∀ gap ∈ closest, IsGap (done ++ rest) boundsStart gap) →
    findGap size hint boundsStart rest closest prev = some (closest', prev') →
    boundsStart ≤ prev' ∧ prev' % pageSize = 0 ∧
    (∀ gap ∈ closest', IsGap (done ++ rest) boundsStart gap) ∧
    ((∀ e ∈ done ++ rest, e.stop ≤ prev') ∨ ∃ gap ∈ closest',
    absDiff prev' hint > absDiff gap.1 hint) := by
  induction rest with
  | nil =>
    intro done closest closest' prev prev' _ passed hle hal gaps run
    cases run
    exact ⟨hle, hal, gaps, .inl (by simpa using passed)⟩
  | cons e rest ih =>
    intro done closest closest' prev prev' wf passed hle hal gaps run
    simp only [findGap] at run
    split at run
    · rename_i far
      cases run
      exact ⟨hle, hal, gaps, .inr far⟩
    · simp only [bind_eq_bind, bind_eq_some_iff, usizeAdd_eq_some] at run
      obtain ⟨_, ⟨_, rfl⟩, _, ⟨_, rfl⟩, run⟩ := run
      have he : e ∈ done ++ e :: rest := by simp
      have hne := wf.ordered.nonempty e he
      have hea := wf.aligned e he
      have sorted := pairwise_append.mp wf.ordered.sorted
      have after := (pairwise_cons.mp sorted.2.1).1
      have before : ∀ f ∈ done, f.stop ≤ e.start :=
        fun f hf => sorted.2.2 f hf e mem_cons_self
      have assoc : done ++ e :: rest = (done ++ [e]) ++ rest := by simp
      rw [assoc] at wf gaps ⊢
      refine ih (done ++ [e]) wf ?_ ?_ ?_ ?_ run
      · intro f hf
        obtain hf | hf := mem_append.mp hf
        · have := before f hf
          omega
        · rw [mem_singleton.mp hf]
          omega
      · omega
      · rcases Nat.le_total e.stop boundsStart with h | h
        · rw [Nat.max_eq_right h]
          exact hb
        · rw [Nat.max_eq_left h]
          exact hea.2
      · intro gap hgap
        split at hgap
        · rename_i fits
          cases hgap
          -- The gap is wider than nothing, so it ends where the entry starts.
          have hstart : max e.start boundsStart = e.start := by omega
          simp only [hstart] at fits ⊢
          have hsum : prev + (e.start - prev) = e.start := by omega
          refine ⟨hle, hal, by rw [hsum]; exact hea.1, fun f hf => ?_⟩
          rw [hsum]
          simp only [mem_append, mem_singleton] at hf
          obtain (hf | rfl) | hf := hf
          · exact .inl (passed f hf)
          · exact .inr le_rfl
          · have := after f hf
            exact .inr (by omega)
        · exact gaps gap hgap

theorem constrain_spec {start' stop' : Nat} (wf : WellFormed map) (hs : start % pageSize = 0)
    (hz : stop % pageSize = 0) (hsize : 0 < size)
    (run : constrain size hint start stop map = some (.ok (start', stop'))) :
    start ≤ start' ∧ stop' ≤ stop ∧ start' % pageSize = 0 ∧ stop' % pageSize = 0 ∧
      ∀ e ∈ map, e.stop ≤ start' ∨ stop' ≤ e.start := by
  unfold constrain at run
  split at run
  · rename_i empty
    cases run
    rw [length_eq_zero_iff.mp empty]
    exact ⟨le_rfl, le_rfl, hs, hz, by simp⟩
  · simp only [bind_eq_bind, bind_eq_some_iff] at run
    obtain ⟨⟨closest, prev⟩, found, last, hlast, run⟩ := run
    obtain ⟨hle, hal, gaps, ends⟩ :=
      findGap_spec hs hsize [] wf (by simp) le_rfl hs (by simp) found
    have gap : ∀ gap ∈ last, IsGap map start gap := by
      intro gap hgap
      unfold lastGap at hlast
      split at hlast
      · rename_i near
        simp only [bind_eq_bind, bind_eq_some_iff, usizeAdd_eq_some] at hlast
        obtain ⟨_, ⟨_, rfl⟩, hlast⟩ := hlast
        cases hlast
        split at hgap
        · cases hgap
          have hsum : prev + (stop - prev) = stop := by omega
          refine ⟨hle, hal, by rw [hsum]; exact hz, fun e he => .inl ?_⟩
          -- The search did not break, so `prev` is behind the last entry.
          obtain passed | ⟨c, hc, far⟩ := ends
          · exact passed e he
          · exact absurd (near c hc) (Nat.not_le_of_gt far)
        · exact gaps gap hgap
      · cases hlast
        exact gaps gap hgap
    cases last with
    | none => cases run
    | some c =>
      cases run
      have isGap := gap c rfl
      refine ⟨Nat.le_max_left _ _, Nat.min_le_left _ _, ?_, ?_, fun e he => ?_⟩
      · rw [Nat.max_eq_right isGap.inside]
        exact isGap.startAligned
      · rcases Nat.le_total stop (c.1 + c.2) with h | h
        · rw [Nat.min_eq_left h]
          exact hz
        · rw [Nat.min_eq_right h]
          exact isGap.stopAligned
      · have := isGap.clear e he
        omega

/-- A placed mapping keeps its distance from both ends of the bounds. -/
theorem placeWithin_spec {addr : Nat} (hs : start % pageSize = 0) (hz : stop % pageSize = 0)
    (hh : hint % pageSize = 0) (hsize : size % pageSize = 0) (hstop : stop < usizeSize)
    (run : placeWithin size hint start stop = some (.ok addr)) :
    start + mapMargin ≤ addr ∧ addr + size + mapMargin ≤ stop ∧ addr % pageSize = 0 := by
  unfold placeWithin at run
  simp only [bind_eq_bind, bind_eq_some_iff, usizeAdd_eq_some] at run
  obtain ⟨_, ⟨_, rfl⟩, run⟩ := run
  simp only [mapMargin, pageSize] at *
  split at run
  · cases run
  · simp only [bind_eq_some_iff, usizeAdd_eq_some] at run
    obtain ⟨_, ⟨_, rfl⟩, run⟩ := run
    split at run
    · simp only [Option.pure_def, some.injEq, Except.ok.injEq] at run
      omega
    · simp only [bind_eq_some_iff, usizeSub_eq_some] at run
      obtain ⟨_, ⟨_, rfl⟩, run⟩ := run
      split at run
      · simp only [bind_eq_some_iff, usizeSub_eq_some] at run
        simp only [Option.pure_def, some.injEq, Except.ok.injEq] at run
        omega
      · simp only [Option.pure_def, some.injEq, Except.ok.injEq] at run
        omega

end BadgerOS.Vmm
