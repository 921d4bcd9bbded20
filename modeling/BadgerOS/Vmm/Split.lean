import BadgerOS.Vmm.FlatMap
import BadgerOS.Vmm.Overlay

/-!
# What a split does to the contents

An entry shows at each of its pages an anonymous page of its overlay, or else a
page of its memory object, or else zeroes. A split moves both: the overlay of
the second half keeps offsets that were meant for the whole entry, and so does
its memory object.
-/

namespace BadgerOS.Vmm

open Fallible MapEntryInner List

open Fallible Intervals

/-- What an entry shows at an offset. -/
inductive Content where
  | anon (paddr : Nat)
  | object (object offset : Nat)
  | zeroes
  deriving DecidableEq, Repr

namespace MapEntryInner

def content (self : MapEntryInner) (offset : Nat) : Content :=
  match self.anonAt offset with
  | some paddr => .anon paddr
  | none =>
    match self.mapping with
    | some mapping => .object mapping.object (offset + mapping.offset)
    | none => .zeroes

/-- The page that `get_page` returns is that of the content. -/
theorem getPage_content (env : Env) (self : MapEntryInner) (handles : Handles) (offset t : Nat) :
    self.getPage env handles offset t =
      match self.content offset with
      | .anon paddr =>
        some (⟨paddr, false, handles.anonUnique paddr &&
          self.amap.any fun amap => handles.amapUnique amap.ptr, false⟩, pageSize)
      | .object object offset => (env.objectGet object offset t).map fun (page, len) =>
          (if Has self.mapFlags SHARED then page else page.clearWritable, len)
      | .zeroes => some (zeroesPage env, pageSize) := by
  unfold getPage getAnon content anonAt
  cases self.amap with
  | none => cases self.mapping <;> rfl
  | some amap =>
    simp only [Option.bind_some, AnonMap.getPage]
    cases amap.val.anonAt offset with
    | none => cases self.mapping <;> rfl
    | some paddr =>
      cases h : handles.amapUnique amap.ptr <;>
        simp [MappablePage.clearWritable, h]

end MapEntryInner

/-- What the entry shows at an address. -/
def MapEntry.contentAt (e : MapEntry) (v : Nat) : Content := e.inner.content (v - e.start)

variable {self : MapEntryInner} {threshold : Nat} {e : MapEntry} {map : List MapEntry}

section Halves

variable {env : Env} {d t t' : Nat}

/-- The first half of an overlay shows nothing below the split, and the second
half shows what was at some lower offset, or nothing. -/
theorem AnonMap.split_anonAt {self : AnonMap} {first second : Option AnonMap}
    (h : self.split env d t = (.ok (first, second), t')) (hpos : 0 < d) (hd : d % pageSize = 0)
    (hoffset : self.offset % pageSize = 0) : (∀ half ∈ first, ∀ o < d, half.anonAt
    o = none) ∧ ∀ half ∈ second, ∀ o, o % pageSize = 0 → half.anonAt o = none ∨
      ∃ o' < o + d, o' % pageSize = 0 ∧ half.anonAt o = self.anonAt o' := by
  unfold split at h
  split at h
  · -- The whole overlay, moved up by `d`.
    cases h
    refine ⟨nofun, ?_⟩
    rintro _ ⟨⟩ o ho
    exact .inr ⟨o, Nat.lt_add_of_pos_right hpos, ho, rfl⟩
  · split at h
    · rename_i heq
      cases h
      refine ⟨?_, nofun⟩
      rintro _ ⟨⟩ o ho
      exact if_pos (heq ▸ ho)
    · split at h
      · cases h
      · split at h
        · cases h
        · cases h
          refine ⟨?_, ?_⟩
          · simp [anonAt]
          · rintro _ ⟨⟩ o ho
            by_cases hod : o < d
            · exact .inl (if_pos hod)
            · refine .inr ⟨o - d + self.offset, by omega, ?_, ?_⟩
              · simp only [pageSize] at *
                omega
              · simp only [anonAt, length_nil, drop_zero]
                rw [if_neg hod, if_neg (by omega), Nat.add_sub_cancel]

theorem MapEntryInner.split_anonAt {first second : MapEntryInner}
    (h : self.split env d t = (.ok (first, second), t')) (hpos : 0 < d) (hd : d % pageSize = 0)
    (hoffset : self.Aligned) : (∀ o < d, first.anonAt o = none) ∧
    ∀ o, o % pageSize = 0 → second.anonAt o = none ∨
      ∃ o' < o + d, o' % pageSize = 0 ∧ second.anonAt o = self.anonAt o' := by
  unfold split at h
  cases ha : self.amap with
  | none =>
    rw [ha] at h
    cases h
    exact ⟨fun _ _ => rfl, fun _ _ => .inl rfl⟩
  | some amap =>
    rw [ha] at h
    simp only at h
    split at h
    · cases h
    · rename_i amap0 amap1 t₁ halves
      have hhalves := AnonMap.split_anonAt halves hpos hd (hoffset amap ha)
      split at h
      · cases h
      · rename_i arc0 t₂ new0
        split at h
        · cases h
        · rename_i arc1 t₃ new1
          cases h
          have h0 := newAmap_ok new0
          have h1 := newAmap_ok new1
          refine ⟨fun o ho => ?_, fun o ho => ?_⟩
          · cases arc0 with
            | none => rfl
            | some arc => exact hhalves.1 arc.val h0.symm o ho
          · cases arc1 with
            | none => exact .inl rfl
            | some arc =>
              have key := hhalves.2 arc.val h1.symm o ho
              unfold anonAt
              rw [ha]
              exact key

/-- Where the halves of a split entry are. -/
theorem splitEntries_mem : ∀ {t t' : Nat} {map' : List MapEntry},
    splitEntries env threshold map t = (.ok (), map', t') → e ∈ map →
    e.start < threshold ∧ threshold < e.stop →
    ∃ t₀ t₁ ptr first second, e.inner.split env (threshold - e.start) t₀ =
      (.ok (first, second), t₁) ∧ { e with stop := threshold, inner := first } ∈ map' ∧
      ⟨ptr, threshold, e.stop, second⟩ ∈ map' := by
  induction map with
  | nil =>
    intro t t' map' _ he
    cases he
  | cons f rest ih =>
    intro t t' map' h he inside
    simp only [splitEntries] at h
    split at h
    · split at h
      · cases h
      · rename_i first second t₁ hsplit
        split at h
        · cases h
        · rename_i ptr t₂ _
          cases hrest : splitEntries env threshold rest t₂ with
          | mk r out =>
            rw [hrest] at h
            cases h
            obtain rfl | he := mem_cons.mp he
            · exact ⟨t, t₁, ptr, first, second, hsplit, by simp, by simp⟩
            · obtain ⟨t₀, t₁, ptr, first, second, hs, h0, h1⟩ := ih hrest he inside
              exact ⟨t₀, t₁, ptr, first, second, hs, by simp [h0], by simp [h1]⟩
    · rename_i beside
      cases hrest : splitEntries env threshold rest t with
      | mk r out =>
        rw [hrest] at h
        cases h
        obtain rfl | he := mem_cons.mp he
        · exact absurd inside beside
        · obtain ⟨t₀, t₁, ptr, first, second, hs, h0, h1⟩ := ih hrest he inside
          exact ⟨t₀, t₁, ptr, first, second, hs, by simp [h0], by simp [h1]⟩

end Halves

/-- Each page of the entry shows in the list what it shows in the entry. -/
def ShownIn (e : MapEntry) (map : List MapEntry) : Prop :=
  ∀ v, Around v e → v % pageSize = 0 →
    (entryAt map v).map (·.contentAt v) = some (e.contentAt v)

/-- The entry has no memory object and no anonymous page in its range. -/
def Blank (e : MapEntry) : Prop :=
  e.inner.mapping = none ∧ ∀ v, Around v e → v % pageSize = 0 →
    e.inner.anonAt (v - e.start) = none

theorem MapEntryInner.content_blank {offset : Nat} (hm : self.mapping = none)
    (ha : self.anonAt offset = none) : self.content offset = .zeroes := by
  unfold content
  rw [ha, hm]

/-- The list shows `first` below the threshold and `second` above it. -/
structure Halves (e : MapEntry) (threshold : Nat) (map : List MapEntry)
    (first second : MapEntryInner) : Prop where
  inside : e.start < threshold ∧ threshold < e.stop
  mapping : first.mapping = e.inner.mapping ∧ second.mapping = e.inner.mapping
  firstAnon : ∀ o < threshold - e.start, first.anonAt o = none
  secondAnon : ∀ o, o % pageSize = 0 → second.anonAt o = none ∨
    ∃ o' < o + (threshold - e.start), o' % pageSize = 0 ∧ second.anonAt o = e.inner.anonAt o'
  low : ∀ v, e.start ≤ v → v < threshold →
    (entryAt map v).map (·.contentAt v) = some (first.content (v - e.start))
  high : ∀ v, threshold ≤ v → v < e.stop →
    (entryAt map v).map (·.contentAt v) = some (second.content (v - threshold))

theorem splitEntries_halves {env : Env} {t t' : Nat} {map' : List MapEntry} (wf : WellFormed map)
    (aligned : threshold % pageSize = 0) (he : e ∈ map)
    (inside : e.start < threshold ∧ threshold < e.stop) (hoffset : e.inner.Aligned)
    (run : splitEntries env threshold map t = (.ok (), map', t')) :
    ∃ first second, Halves e threshold map' first second := by
  obtain ⟨t₀, t₁, ptr, first, second, hsplit, h0, h1⟩ := splitEntries_mem run he inside
  have wf' := (splitEntries_splits run).1.wellFormed aligned wf
  have hstart := (wf.aligned e he).1
  have hd : (threshold - e.start) % pageSize = 0 := by
    simp only [pageSize] at *
    omega
  have anons := split_anonAt hsplit (by omega) hd hoffset
  have mapping : first.mapping = e.inner.mapping ∧ second.mapping = e.inner.mapping := by
    obtain ⟨amap0, amap1, rfl, rfl⟩ := split_ok hsplit
    exact ⟨rfl, rfl⟩
  refine ⟨first, second, inside, mapping, anons.1, anons.2, fun v hv hv' => ?_,
    fun v hv hv' => ?_⟩
  · rw [entryAt, wf'.ordered.find_eq_some.mpr ⟨h0, hv, hv'⟩]
    rfl
  · rw [entryAt, wf'.ordered.find_eq_some.mpr ⟨h1, hv, hv'⟩]
    rfl

namespace Halves

variable {first second : MapEntryInner}

section

variable (h : Halves e threshold map first second) (aligned : threshold % pageSize = 0)
  (hstart : e.start % pageSize = 0)
include h aligned hstart

/-- The lowest anonymous page would now be shown lower down, or not at all. -/
theorem no_anon (shown : ShownIn e map) (v : Nat) :
    Around v e → v % pageSize = 0 → e.inner.anonAt (v - e.start) = none := by
  induction v using Nat.strong_induction_on with
  | _ v ih =>
    intro around hv
    have same := shown v around hv
    have inside := h.inside
    obtain ⟨hlow, hhigh⟩ := around
    by_contra resident
    obtain ⟨paddr, hpaddr⟩ := Option.ne_none_iff_exists'.mp resident
    have content : e.contentAt v = .anon paddr := by
      simp only [MapEntry.contentAt, content, hpaddr]
    rw [content] at same
    rcases Nat.lt_or_ge v threshold with hvt | hvt
    · rw [h.low v hlow hvt] at same
      have hfirst := h.firstAnon (v - e.start) (by omega)
      simp only [MapEntryInner.content, hfirst] at same
      cases hm : first.mapping <;> rw [hm] at same <;> cases same
    · rw [h.high v hvt hhigh] at same
      have hsecond : second.anonAt (v - threshold) = none := by
        obtain hnone | ⟨o, ho, hpage, heq⟩ :=
          h.secondAnon (v - threshold) (by simp only [pageSize] at *; omega)
        · exact hnone
        · have lower :=
            ih (e.start + o) (by omega) ⟨by omega, by omega⟩ (add_aligned hstart hpage)
          rw [Nat.add_sub_cancel_left] at lower
          rw [heq, lower]
      simp only [MapEntryInner.content, hsecond] at same
      cases hm : second.mapping <;> rw [hm] at same <;> cases same

/-- Only a blank entry looks the same after a split. -/
theorem shown_iff : ShownIn e map ↔ Blank e := by
  have inside := h.inside
  constructor
  · intro shown
    have anons := h.no_anon aligned hstart shown
    refine ⟨?_, anons⟩
    -- At the threshold the second half is at the start of its object.
    have same := shown threshold ⟨inside.1.le, inside.2⟩ aligned
    rw [h.high threshold (Nat.le_refl _) inside.2, Nat.sub_self] at same
    have hanon := anons threshold ⟨inside.1.le, inside.2⟩ aligned
    cases hm : e.inner.mapping with
    | none => rfl
    | some m =>
      simp only [MapEntry.contentAt, content, hanon, h.mapping.2, hm] at same
      cases hz : second.anonAt 0 with
      | some paddr =>
        rw [hz] at same
        cases same
      | none =>
        rw [hz] at same
        simp only [Option.some.injEq, Content.object.injEq] at same
        omega
  · intro ⟨hm, anons⟩ v around hv
    have hcontent : e.contentAt v = .zeroes := content_blank hm (anons v around hv)
    rw [hcontent]
    obtain ⟨hlow, hhigh⟩ := around
    rcases Nat.lt_or_ge v threshold with hvt | hvt
    · rw [h.low v hlow hvt, content_blank (h.mapping.1.trans hm) (h.firstAnon _ (by omega))]
    · rw [h.high v hvt hhigh, content_blank (h.mapping.2.trans hm) ?_]
      obtain hnone | ⟨o, ho, hpage, heq⟩ :=
        h.secondAnon (v - threshold) (by simp only [pageSize] at *; omega)
      · exact hnone
      · have lower := anons (e.start + o) ⟨by omega, by omega⟩ (add_aligned hstart hpage)
        rw [Nat.add_sub_cancel_left] at lower
        rw [heq, lower]

end

end Halves

/-- A split is invisible to the contents of an entry exactly if the entry has no
memory object and no anonymous page. -/
theorem split_invisible_iff {env : Env} {i threshold : Nat} {w w' : World} {s s' : Space}
    {e : MapEntry} (hs : w.spaces[i]? = some s) (hs' : w'.spaces[i]? = some s')
    (wf : WellFormed s.map) (he : e ∈ s.map) (inside : e.start < threshold ∧ threshold < e.stop)
    (hoffset : e.inner.Aligned)
    (run : split env i threshold w = some (.ok (), w')) : ShownIn e s'.map ↔ Blank e := by
  have spec : wlp (split env i threshold) (fun _ w' => threshold % pageSize = 0 ∧
    ∀ s', w'.spaces[i]? = some s' →
        ∃ t', splitEntries env threshold s.map w.tick = (.ok (), s'.map, t'))
            (fun _ => True) w := by
    rw [wlp_split_iff]
    intro aligned s₁ hs₁
    obtain rfl : s = s₁ := Option.some.inj (hs.symm.trans hs₁)
    split
    · rename_i map' t' hsplit
      refine ⟨aligned, fun s' hs' => ⟨t', ?_⟩⟩
      simp only [World.setMap, getElem?_modify, hs] at hs'
      cases hs'
      exact hsplit
    · trivial
  obtain ⟨aligned, hsplit⟩ := spec _ w' run
  obtain ⟨t', hsplit⟩ := hsplit s' hs'
  obtain ⟨first, second, halves⟩ := splitEntries_halves wf aligned he inside hoffset hsplit
  exact halves.shown_iff aligned (wf.aligned e he).1

/-- Two pages at `0x10000`. -/
def twoPages (mapping : Option Mapping) : MapEntry :=
  ⟨1, 65536, 73728, ⟨Prot.READ, PRIVATE ||| FIXED, none, mapping⟩⟩

def twoPagesWorld (mapping : Option Mapping) : World := emptyWorld.setMap 0 [twoPages mapping]

theorem split_invisible_iff_blank : ∃ (w' : World) (s' : Space), w'.spaces[0]? = some s' ∧
    s'.map.length = 2 ∧
      split calmEnv 0 69632 (twoPagesWorld none) = some (.ok (), w') ∧
      ShownIn (twoPages none) s'.map := by
  refine ⟨_, _, rfl, rfl, rfl, ?_⟩
  have wf : WellFormed [twoPages none] :=
    wellFormed_cons.mpr ⟨by decide, by simp, wellFormed_nil⟩
  refine (@split_invisible_iff calmEnv 0 69632 (twoPagesWorld none) _ _ _ (twoPages none) rfl rfl wf
    (mem_singleton.mpr rfl) (by decide) ?_ rfl).mpr ⟨rfl, fun _ _ _ => rfl⟩
  intro amap h
  cases h

/-- The second page of a mapped file shows the first page of the file after a
split between them. -/
theorem not_split_invisible : (runAll (exec calmEnv) (fun _ call => call.Legal)
      [.map 0 8192 65536 0 0 (PRIVATE ||| FIXED) Prot.READ (some ⟨0, 7⟩)] emptyWorld).map
      World.maps = some (twoPagesWorld (some ⟨0, 7⟩)).maps ∧
    ∃ (w' : World) (s' : Space), w'.spaces[0]? = some s' ∧
      split calmEnv 0 69632 (twoPagesWorld (some ⟨0, 7⟩)) = some (.ok (), w') ∧
      (twoPages (some ⟨0, 7⟩)).contentAt 69632 = .object 7 4096 ∧
      (entryAt s'.map 69632).map (·.contentAt 69632) = some (.object 7 0) ∧
      ¬ ShownIn (twoPages (some ⟨0, 7⟩)) s'.map := by
  refine ⟨by decide +kernel, _, _, rfl, rfl, rfl, rfl, fun shown => ?_⟩
  have same := shown 69632 (by decide) (by decide)
  exact absurd same (by decide)

end BadgerOS.Vmm
