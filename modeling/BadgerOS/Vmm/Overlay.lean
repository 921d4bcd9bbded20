import BadgerOS.Vmm.Steps

/-!
# Overlays

What a page fault finds at an offset of an entry, and what it does to the
anonymous overlay.
-/

namespace BadgerOS.Vmm

open Option List Nat

variable {env : Env} {t t' offset p : Nat} {self : AnonMap} {r : Except Errno Unit}
  {orig : Option Nat} {page : MappablePage}

theorem tryAlloc_ok {ptr : Nat} (h : tryAlloc env t = (.ok ptr, t')) : env.allocOk t = true ∧
    t' = t + 1 := by
  unfold tryAlloc at h
  split at h
  · rename_i hok
    cases h
    exact ⟨hok, rfl⟩
  · cases h

theorem tryAlloc_tick {r : Except Errno Nat} (h : tryAlloc env t = (r, t')) : t' = t + 1 := by
  cases h
  rfl

namespace AnonMap

theorem anonAt_mem (h : self.anonAt offset = some p) : some p ∈ self.pages := by
  unfold anonAt at h
  split at h
  · cases h
  · rw [join_eq_some_iff] at h
    exact mem_of_getElem? h

variable {self' : AnonMap} {mem mem' : Memory}

/-- Slots are added without a page in them. -/
theorem anonAt_append (self : AnonMap) (n o : Nat) :
    ({ self with pages := self.pages ++ replicate n none } : AnonMap).anonAt o = self.anonAt o := by
  unfold anonAt
  split
  · rfl
  · simp only [getElem?_append]
    split
    · rfl
    · rename_i h
      rw [List.getElem?_eq_none (Nat.le_of_not_lt h), List.getElem?_replicate]
      split <;> rfl

theorem anonAt_prepend (self : AnonMap) {n : Nat} (h : n * pageSize ≤ self.offset) (o : Nat) :
    (⟨self.offset - n * pageSize, replicate n none ++ self.pages⟩ : AnonMap).anonAt
    o = self.anonAt o := by
  unfold anonAt
  simp only [getElem?_append, length_replicate, getElem?_replicate]
  by_cases hlow : o < self.offset - n * pageSize
  · rw [if_pos hlow, if_pos (by omega)]
  · rw [if_neg hlow]
    by_cases ho : o < self.offset
    · have hidx : (o - (self.offset - n * pageSize)) / pageSize < n := by
        rw [div_lt_iff_lt_mul (by decide)]
        omega
      rw [if_pos ho, if_pos hidx, if_pos hidx]
      rfl
    · have hsum : o - (self.offset - n * pageSize) = (o - self.offset) + n * pageSize := by omega
      have hidx : (o - (self.offset - n * pageSize)) / pageSize =
          (o - self.offset) / pageSize + n := by
        rw [hsum, add_mul_div_right _ _ (by decide)]
      rw [if_neg ho, hidx, if_neg (Nat.not_lt_of_le (Nat.le_add_left n _)), Nat.add_sub_cancel]

/-- The room that `alloc_page` makes shows nothing new, and holds the slot. -/
theorem grow_spec (h : self.grow env offset t = (r, self', t'))
    (hself : self.offset % pageSize = 0) (hoffset : offset % pageSize = 0) :
    (∀ o, self'.anonAt o = self.anonAt o) ∧ self'.offset % pageSize = 0 ∧
    (∀ p, some p ∈ self'.pages → some p ∈ self.pages) ∧
    (r = .ok () → self'.offset ≤ offset ∧
    (offset - self'.offset) / pageSize < self'.pages.length) := by
  unfold grow at h
  split at h
  · rename_i hempty
    have hpages := length_eq_zero_iff.mp hempty
    split at h <;> cases h
    · refine ⟨fun o => ?_, hoffset, fun p hp => hp, nofun⟩
      simp [anonAt, hpages]
    · refine ⟨fun o => ?_, hoffset, fun p hp => ?_, fun _ => ⟨le_refl _, by simp⟩⟩
      · simp only [anonAt, hpages, nil_append, getElem?_singleton, getElem?_nil,
          join_none, ite_self]
        split
        · rfl
        · split <;> rfl
      · simp [hpages] at hp
  · rename_i hne
    split at h
    · have hshift : (self.offset - offset) / pageSize * pageSize = self.offset - offset :=
        Nat.div_mul_cancel (Nat.dvd_of_mod_eq_zero (by simp only [pageSize] at *; omega))
      split at h <;> cases h
      · exact ⟨fun _ => rfl, hself, fun p hp => hp, nofun⟩
      · refine ⟨anonAt_prepend self (by omega), ?_, fun p hp => ?_, fun _ => ⟨?_, ?_⟩⟩
        · rw [hshift]
          have : self.offset - (self.offset - offset) = offset := by omega
          rw [this, hoffset]
        · simpa using hp
        · simp only
          omega
        · simp only [length_append, length_replicate]
          have : offset - (self.offset - (self.offset - offset) / pageSize * pageSize) = 0 := by
            omega
          rw [this, Nat.zero_div]
          exact Nat.lt_of_lt_of_le (Nat.pos_of_ne_zero hne) (Nat.le_add_left _ _)
    · rename_i hge
      split at h
      · split at h <;> cases h
        · exact ⟨fun _ => rfl, hself, fun p hp => hp, nofun⟩
        · refine ⟨anonAt_append self _, hself, fun p hp => ?_, fun _ =>
            ⟨Nat.le_of_not_lt hge, ?_⟩⟩
          · simpa using hp
          · simp only [length_append, length_replicate]
            simp only [pageSize] at *
            omega
      · cases h
        refine ⟨fun _ => rfl, hself, fun p hp => hp, fun _ => ⟨Nat.le_of_not_lt hge, ?_⟩⟩
        rw [div_lt_iff_lt_mul (by decide)]
        omega

theorem grow_tick (h : self.grow env offset t = (r, self', t')) : t ≤ t' := by
  have key : t ≤ (self.grow env offset t).2.2 := by
    unfold grow tryAlloc
    cases env.allocOk t <;> split_ifs <;> simp
  rw [h] at key
  exact key

theorem anonAt_set (hself : self.offset % pageSize = 0) (hoffset : offset % pageSize = 0)
    (hle : self.offset ≤ offset) (hlt : (offset - self.offset) / pageSize < self.pages.length)
    {o : Nat} (ho : o % pageSize = 0) :
    ({ self with
      pages := self.pages.set ((offset - self.offset) / pageSize) (some p) } : AnonMap).anonAt o =
        if o = offset then some p else self.anonAt o := by
  unfold anonAt
  simp only [getElem?_set]
  by_cases heq : o = offset
  · subst heq
    rw [if_neg (Nat.not_lt_of_le hle), if_pos rfl, if_pos rfl, if_pos hlt]
    rfl
  · split
    · rfl
    · rw [if_neg ?_]
      simp only [pageSize] at *
      omega

/-- The page that `alloc_page` puts into the slot at `offset`. -/
structure NewPage (env : Env) (self self' : AnonMap) (offset : Nat) (orig : Option Nat)
    (mem mem' : Memory) (t t' newPage : Nat) : Prop where
  allocated : ∃ t₀, t ≤ t₀ ∧ t₀ + 1 < t' ∧ env.pageAlloc t₀ = some newPage ∧
    env.allocOk (t₀ + 1) = true
  shown : ∀ o, o % pageSize = 0 → self'.anonAt o = if o = offset then some newPage
    else self.anonAt o
  held : ∀ p, some p ∈ self'.pages → p = newPage ∨ some p ∈ self.pages
  copied : mem' = Function.update mem newPage (orig.elim (fun _ => 0) mem)

theorem allocPage_error {e : Errno}
    (h : self.allocPage env offset orig mem t = (.error e, self', mem', t'))
    (hself : self.offset % pageSize = 0) (hoffset : offset % pageSize = 0) :
    t ≤ t' ∧ self'.offset % pageSize = 0 ∧ mem' = mem ∧ (∀ o, self'.anonAt o = self.anonAt
      o) ∧ ∀ p, some p ∈ self'.pages → some p ∈ self.pages := by
  unfold allocPage at h
  split at h
  · rename_i hgrow
    cases h
    obtain ⟨shown, aligned, held, _⟩ := grow_spec hgrow hself hoffset
    exact ⟨grow_tick hgrow, aligned, rfl, shown, held⟩
  · rename_i self₁ t₁ hgrow
    obtain ⟨shown, aligned, held, _⟩ := grow_spec hgrow hself hoffset
    have ht := grow_tick hgrow
    split at h
    · cases h
      exact ⟨by omega, aligned, rfl, shown, held⟩
    · split at h
      · rename_i hfail
        cases h
        have := tryAlloc_tick hfail
        exact ⟨by omega, aligned, rfl, shown, held⟩
      · cases h

theorem allocPage_ok (h : self.allocPage env offset orig mem t = (.ok page, self', mem', t'))
    (hself : self.offset % pageSize = 0) (hoffset : offset % pageSize = 0) :
    t ≤ t' ∧ self'.offset % pageSize = 0 ∧ page = ⟨page.paddr, false, true, false⟩ ∧
      NewPage env self self' offset orig mem mem' t t' page.paddr := by
  unfold allocPage at h
  split at h
  · cases h
  · rename_i self₁ t₁ hgrow
    obtain ⟨shown, aligned, held, room⟩ := grow_spec hgrow hself hoffset
    obtain ⟨hle, hlt⟩ := room rfl
    have ht := grow_tick hgrow
    split at h
    · cases h
    · rename_i newPage hnew
      split at h
      · cases h
      · rename_i boxed
        obtain ⟨hok, rfl⟩ := tryAlloc_ok boxed
        cases h
        refine ⟨by omega, aligned, rfl, ⟨t₁,
          ht, by omega, hnew, hok⟩, fun o ho => ?_, fun p hp => ?_, ?_⟩
        · rw [anonAt_set aligned hoffset hle hlt ho, shown]
        · obtain hp | hp := mem_or_eq_of_mem_set hp
          · exact .inr (held p hp)
          · exact .inl (some.inj hp)
        · cases orig <;> rfl

end AnonMap

namespace MapEntryInner

/-- The anon of the overlay at an offset. -/
def anonAt (self : MapEntryInner) (offset : Nat) : Option Nat :=
  self.amap.bind fun amap => amap.val.anonAt offset

/-- The overlay has a handle of the anon. -/
def Holds (self : MapEntryInner) (p : Nat) : Prop :=
  ∃ amap ∈ self.amap, some p ∈ amap.val.pages

def Aligned (self : MapEntryInner) : Prop := ∀ amap ∈ self.amap, amap.val.offset % pageSize = 0

theorem holds_of_anonAt {self : MapEntryInner} (h : self.anonAt offset = some p) :
    self.Holds p := by
  obtain ⟨amap, hamap, hp⟩ := bind_eq_some_iff.mp h
  exact ⟨amap, hamap, AnonMap.anonAt_mem hp⟩

/-- All that `fault_impl` can find at an offset, with what it leaves behind. -/
inductive Resolved (env : Env) (self : MapEntryInner) (handles : Handles) (offset : Nat)
    (mem : Memory) (t : Nat) :
    Except Errno (MappablePage × Nat) → MapEntryInner → Memory → Nat → Prop
  | anon {amap : Arc AnonMap} {p t' : Nat} (hamap : self.amap = some amap)
      (hp : amap.val.anonAt offset = some p) (ht : t ≤ t') :
      Resolved env self handles offset mem t
        (.ok (⟨p, false, handles.anonUnique p && handles.amapUnique amap.ptr, false⟩, pageSize))
        self mem t'
  | object {m : Mapping} {page : MappablePage} {len t₀ t' : Nat} (hm : self.mapping = some m)
      (hobject : env.objectGet m.object (offset + m.offset) t₀ = some (page, len) ∨
        env.objectAlloc m.object (offset + m.offset) t₀ = .ok (page, len)) (ht : t ≤ t') :
      Resolved env self handles offset mem t
        (.ok (if Has self.mapFlags SHARED then page else page.clearWritable, len)) self mem t'
  | zeroes {t' : Nat} (hm : self.mapping = none) (ht : t ≤ t') :
      Resolved env self handles offset mem t (.ok (zeroesPage env, pageSize)) self mem t'
  | failed {e : Errno} {amap : Option (Arc AnonMap)} {t' : Nat}
      (shown : ∀ o, ({ self with amap := amap } : MapEntryInner).anonAt o = self.anonAt o)
      (held : ∀ p, ({ self with amap := amap } : MapEntryInner).Holds p → self.Holds p)
      (aligned : ({ self with amap := amap } : MapEntryInner).Aligned) (ht : t ≤ t') :
      Resolved env self handles offset mem t (.error e) { self with amap := amap } mem t'
  /-- A new anon, with the data of a page that was found before. -/
  | copied {amap : Arc AnonMap} {p t₀ t' : Nat} {orig : Option Nat} {mem' : Memory}
      (allocated : t ≤ t₀ ∧ t₀ + 1 < t' ∧ env.pageAlloc t₀ = some p ∧
        env.allocOk (t₀ + 1) = true)
      (shown : ∀ o, o % pageSize = 0 → amap.val.anonAt o = if o = offset then some p
        else self.anonAt o)
      (held : ∀ q, some q ∈ amap.val.pages → q = p ∨ self.Holds q)
      (aligned : amap.val.offset % pageSize = 0)
      (source : ∀ q ∈ orig, self.anonAt offset = some q ∨
        ∃ m t₁ len, self.mapping = some m ∧
        ∃ page : MappablePage, page.paddr = q ∧
          env.objectAlloc m.object (offset + m.offset) t₁ = .ok (page, len))
      (data : mem' = Function.update mem p (orig.elim (fun _ => 0) mem)) :
      Resolved env self handles offset mem t (.ok (⟨p, false, true, false⟩, pageSize))
        { self with amap := some amap } mem' t'

variable {self guard : MapEntryInner} {handles : Handles}
  {mem mem' : Memory} {forWriting : Bool}

theorem ownAmap_spec {amap : Arc AnonMap} (h : self.ownAmap env handles t = (.ok amap, t'))
    (haligned : self.Aligned) :
    t ≤ t' ∧ amap.val.offset % pageSize = 0 ∧ (∀ o, amap.val.anonAt o = self.anonAt o) ∧
      ∀ p, some p ∈ amap.val.pages → self.Holds p := by
  unfold ownAmap at h
  split at h
  · rename_i amap₀ hamap
    have shown : ∀ o, amap₀.val.anonAt o = self.anonAt o := by
      intro o
      rw [anonAt, hamap]
      rfl
    have held : ∀ p, some p ∈ amap₀.val.pages → self.Holds p :=
      fun p hp => ⟨amap₀, hamap, hp⟩
    have offset := haligned amap₀ hamap
    split at h
    · cases h
      exact ⟨le_refl _, offset, shown, held⟩
    · split at h
      · cases h
      · rename_i hok
        obtain ⟨_, rfl⟩ := tryAlloc_ok hok
        cases h
        exact ⟨le_succ _, offset, shown, held⟩
  · rename_i hamap
    split at h
    · cases h
    · rename_i hok
      obtain ⟨_, rfl⟩ := tryAlloc_ok hok
      cases h
      simp [anonAt, hamap, AnonMap.anonAt]

theorem ownAmap_tick {r : Except Errno (Arc AnonMap)} (h : self.ownAmap env handles t = (r, t')) :
    t ≤ t' := by
  have key : t ≤ (self.ownAmap env handles t).2 := by
    unfold ownAmap tryAlloc
    cases self.amap <;> dsimp only <;> split_ifs <;> simp
  rw [h] at key
  exact key

theorem getAnon_eq (h : self.getAnon handles offset = some page) :
    ∃ amap p, self.amap = some amap ∧ amap.val.anonAt offset = some p ∧
      page = ⟨p, false, handles.anonUnique p && handles.amapUnique amap.ptr, false⟩ := by
  unfold getAnon AnonMap.getPage at h
  simp only [bind_eq_some_iff, map_eq_some_iff] at h
  obtain ⟨amap, hamap, _, ⟨p, hp, rfl⟩, rfl⟩ := h
  refine ⟨amap, p, hamap, hp, ?_⟩
  cases hu : handles.amapUnique amap.ptr <;> simp [MappablePage.clearWritable]

variable {t₁ : Nat} {r : Except Errno (MappablePage × Nat)}

/-- The copy of a page that was found into a new anon, or the failure to make one. -/
theorem copy_resolved (ht : t ≤ t₁) (h : (match self.ownAmap env handles t₁ with
      | (.error e, t) => (.error e, self, mem, t)
      | (.ok amap, t) =>
      match amap.val.allocPage env offset orig mem t with
      | (.error e, val, mem, t) =>
        (.error e, { self with amap := some ⟨amap.ptr, val⟩ }, mem, t)
      | (.ok page, val, mem, t) =>
      (.ok (page, pageSize), { self with amap := some ⟨amap.ptr, val⟩ }, mem, t)) =
      (r, guard, mem', t')) (haligned : self.Aligned) (hoffset : offset % pageSize = 0)
    (source : ∀ q ∈ orig, self.anonAt offset = some q ∨
    ∃ m t₁ len, self.mapping = some m ∧
      ∃ page : MappablePage, page.paddr = q ∧
      env.objectAlloc m.object (offset + m.offset) t₁ = .ok (page, len)) :
    Resolved env self handles offset mem t r guard mem' t' := by
  split at h
  · rename_i failed
    cases h
    exact .failed (fun _ => rfl) (fun _ h => h) haligned (ht.trans (ownAmap_tick failed))
  · rename_i amap t₂ own
    obtain ⟨ht₂, hamap, shown, held⟩ := ownAmap_spec own haligned
    split at h
    · rename_i failed
      cases h
      obtain ⟨ht₃, aligned, rfl, shown', held'⟩ :=
        AnonMap.allocPage_error failed hamap hoffset
      refine .failed (fun o => (shown' o).trans (shown o)) ?_ ?_ (by omega)
      · rintro p ⟨_, ⟨⟩, hp⟩
        exact held p (held' p hp)
      · rintro _ ⟨⟩
        exact aligned
    · rename_i page val mem₁ t₃ new
      cases h
      obtain ⟨ht₃, aligned, hpage, ⟨t₀, h₀, h₁, hnew, hok⟩, shown', held', data⟩ :=
        AnonMap.allocPage_ok new hamap hoffset
      rw [hpage]
      refine .copied ⟨by omega, h₁, hnew, hok⟩ ?_ ?_ aligned source data
      · intro o ho
        rw [shown' o ho, shown o]
      · intro q hq
        exact (held' q hq).imp_right (held q)

theorem findPage_tick {r : Except Errno Source}
    (h : self.findPage env handles offset forWriting t = (r, t')) : t ≤ t' := by
  unfold findPage at h
  split at h
  · split at h <;> cases h <;> exact le_refl _
  · dsimp only at h
    split at h
    · cases h
      exact le_succ _
    · split at h <;> cases h <;> exact le_succ _

theorem findPage_mappable {len : Nat} (ht : t ≤ t₁)
    (h : self.findPage env handles offset forWriting t₁ = (.ok (.mappable page len), t')) :
    Resolved env self handles offset mem t (.ok (page, len)) self mem t' := by
  have ht' := ht.trans (findPage_tick h)
  unfold findPage at h
  split at h
  · rename_i anon hanon
    obtain ⟨amap, p, hamap, hp, rfl⟩ := getAnon_eq hanon
    split at h <;> cases h
    exact .anon hamap hp ht'
  · dsimp only at h
    split at h
    · cases h
    · rename_i page₀ len₀ found
      split at h <;> cases h
      cases hm : self.mapping with
      | some m =>
        rw [hm] at found
        exact .object hm (.inr found) ht'
      | none =>
        rw [hm] at found
        cases found
        have zero : (if Has self.mapFlags SHARED then zeroesPage env
            else (zeroesPage env).clearWritable) = zeroesPage env := by
          split <;> rfl
        rw [zero]
        exact .zeroes hm ht'

theorem findPage_copy (h : self.findPage env handles offset forWriting t = (.ok (.copy orig), t')) :
    ∀ q ∈ orig, self.anonAt offset = some q ∨ ∃ m t₁ len, self.mapping = some m ∧
      ∃ page : MappablePage, page.paddr = q ∧
        env.objectAlloc m.object (offset + m.offset) t₁ = .ok (page, len) := by
  unfold findPage at h
  split at h
  · rename_i anon hanon
    obtain ⟨amap, p, hamap, hp, rfl⟩ := getAnon_eq hanon
    split at h <;> cases h
    rintro _ ⟨⟩
    refine .inl ?_
    rw [anonAt, hamap]
    exact hp
  · dsimp only at h
    split at h
    · cases h
    · rename_i page₀ len₀ found
      split at h <;> cases h
      intro q hq
      cases hm : self.mapping with
      | none =>
        rw [hm] at hq
        cases hq
      | some m =>
        rw [hm] at found hq
        cases hq
        exact .inr ⟨m, t, len₀, rfl, page₀, rfl, found⟩

theorem allocPage_resolved (ht : t ≤ t₁)
    (h : self.allocPage env handles offset forWriting mem t₁ = (r, guard, mem', t'))
    (haligned : self.Aligned) (hoffset : offset % pageSize = 0) :
    Resolved env self handles offset mem t r guard mem' t' := by
  unfold allocPage at h
  split at h
  · rename_i failed
    cases h
    exact .failed (fun _ => rfl) (fun _ h => h) haligned (ht.trans (findPage_tick failed))
  · rename_i found
    cases h
    exact findPage_mappable ht found
  · rename_i found
    exact copy_resolved (ht.trans (findPage_tick found)) h haligned hoffset (findPage_copy found)

theorem resolve_resolved {access : ProtFlags}
    (h : self.resolve env handles offset access mem t = (r, guard, mem', t'))
    (haligned : self.Aligned) (hoffset : offset % pageSize = 0) :
    Resolved env self handles offset mem t r guard mem' t' := by
  unfold resolve at h
  split at h
  · exact allocPage_resolved (le_succ t) h haligned hoffset
  · rename_i page found
    split at h
    · exact allocPage_resolved (le_succ t) h haligned hoffset
    · cases h
      unfold getPage at found
      split at found
      · rename_i anon hanon
        cases found
        obtain ⟨amap, p, hamap, hp, rfl⟩ := getAnon_eq hanon
        exact .anon hamap hp (le_succ t)
      · split at found
        · rename_i m hm
          rw [map_eq_some_iff] at found
          obtain ⟨⟨page, len⟩, hget, rfl⟩ := found
          exact .object hm (.inl hget) (le_succ t)
        · rename_i hm
          cases found
          exact .zeroes hm (le_succ t)

theorem Resolved.keeps (haligned : self.Aligned)
    (h : Resolved env self handles offset mem t r guard mem' t') : t ≤ t' ∧ guard.Aligned := by
  cases h with
  | anon _ _ ht | object _ _ ht | zeroes _ ht => exact ⟨ht, haligned⟩
  | failed _ _ aligned ht => exact ⟨ht, aligned⟩
  | copied allocated _ _ aligned _ _ =>
    refine ⟨by omega, ?_⟩
    rintro _ ⟨⟩
    exact aligned

end MapEntryInner

section Split

variable {d : Nat}

theorem AnonMap.split_tick {r : Except Errno (Option AnonMap × Option AnonMap)}
    (h : self.split env d t = (r, t')) : t ≤ t' := by
  unfold split at h
  split at h
  · cases h
    exact le_refl _
  · split at h
    · cases h
      exact le_refl _
    · split at h
      · rename_i alloc₁
        cases h
        exact (tryAlloc_tick alloc₁).symm ▸ le_succ _
      · rename_i t₁ alloc₁
        have := tryAlloc_tick alloc₁
        split at h
        all_goals
          rename_i alloc₂
          have := tryAlloc_tick alloc₂
          cases h
          omega

theorem AnonMap.split_held {first second : Option AnonMap}
    (h : self.split env d t = (.ok (first, second), t')) (hself : self.offset % pageSize = 0)
    (hd : d % pageSize = 0) :
    ∀ half, half ∈ first ∨ half ∈ second → half.offset % pageSize = 0 ∧
      ∀ p, some p ∈ half.pages → some p ∈ self.pages := by
  unfold split at h
  split at h
  · cases h
    rintro half (⟨⟨⟩⟩ | ⟨⟨⟩⟩)
    exact ⟨hself, fun _ hp => hp⟩
  · split at h
    · cases h
      rintro half (⟨⟨⟩⟩ | ⟨⟨⟩⟩)
      exact ⟨hself, fun _ hp => hp⟩
    · split at h
      · cases h
      · split at h
        · cases h
        · cases h
          rintro half (⟨⟨⟩⟩ | ⟨⟨⟩⟩)
          · exact ⟨hself, fun _ hp => mem_of_mem_take hp⟩
          · exact ⟨hd, fun _ hp => mem_of_mem_drop hp⟩

theorem MapEntryInner.newAmap_tick {amap : Option AnonMap} {r : Except Errno (Option (Arc AnonMap))}
    (h : newAmap env amap t = (r, t')) : t ≤ t' := by
  have key : t ≤ (newAmap env amap t).2 := by
    unfold newAmap tryAlloc
    cases amap <;> cases env.allocOk t <;> simp
  rw [h] at key
  exact key

theorem MapEntryInner.split_tick {self : MapEntryInner}
    {r : Except Errno (MapEntryInner × MapEntryInner)} (h : self.split env d t = (r, t')) :
    t ≤ t' := by
  unfold split at h
  split at h
  · cases h
    exact le_refl _
  · split at h
    · rename_i halves
      cases h
      exact AnonMap.split_tick halves
    · rename_i halves
      have := AnonMap.split_tick halves
      split at h
      · rename_i new0
        cases h
        exact this.trans (newAmap_tick new0)
      · rename_i new0
        have := this.trans (newAmap_tick new0)
        split at h
        all_goals
          rename_i new1
          cases h
          exact this.trans (newAmap_tick new1)

/-- The halves of an entry hold no new pages. -/
theorem MapEntryInner.split_held {self first second : MapEntryInner}
    (h : self.split env d t = (.ok (first, second), t')) (hself : self.Aligned)
    (hd : d % pageSize = 0) :
    (first.Aligned ∧ second.Aligned) ∧ ∀ p, first.Holds p ∨ second.Holds p →
    self.Holds p := by
  unfold split at h
  cases ha : self.amap with
  | none =>
    rw [ha] at h
    cases h
    refine ⟨⟨nofun, nofun⟩, ?_⟩
    rintro p (⟨_, ⟨⟩, _⟩ | ⟨_, ⟨⟩, _⟩)
  | some amap =>
    rw [ha] at h
    simp only at h
    split at h
    · cases h
    · rename_i amap0 amap1 t₁ halves
      have held := AnonMap.split_held halves (hself amap ha) hd
      split at h
      · cases h
      · rename_i arc0 t₂ new0
        split at h
        · cases h
        · rename_i arc1 t₃ new1
          cases h
          have h0 := newAmap_ok new0
          have h1 := newAmap_ok new1
          refine ⟨⟨?_, ?_⟩, ?_⟩
          · rintro arc rfl
            exact (held arc.val (.inl h0.symm)).1
          · rintro arc rfl
            exact (held arc.val (.inr h1.symm)).1
          · rintro p (⟨arc, rfl, hp⟩ | ⟨arc, rfl, hp⟩)
            · exact ⟨amap, ha, (held arc.val (.inl h0.symm)).2 p hp⟩
            · exact ⟨amap, ha, (held arc.val (.inr h1.symm)).2 p hp⟩

/-- What an entry of a split list has from the entry that it is a part of. -/
structure PartOf (e e' : MapEntry) : Prop where
  range : e.start ≤ e'.start ∧ e'.stop ≤ e.stop
  inner : { e'.inner with amap := none } = { e.inner with amap := none }
  aligned : e.inner.Aligned → e'.inner.Aligned
  held : ∀ p, e'.inner.Holds p → e.inner.Holds p

theorem PartOf.refl (e : MapEntry) : PartOf e e :=
  ⟨⟨le_refl _, le_refl _⟩, rfl, fun h => h, fun _ h => h⟩

/-- The entries of a split list are parts of the old ones, in boxes that are old or new. -/
theorem splitEntries_parts {threshold : Nat} {map : List MapEntry} :
    ∀ {t t' : Nat} {r : Except Errno Unit} {map' : List MapEntry},
    splitEntries env threshold map t = (r, map', t') → WellFormed map →
      threshold % pageSize = 0 →
    (∀ e ∈ map, e.inner.Aligned) →
    t ≤ t' ∧ (∀ e' ∈ map', ∃ e ∈ map, PartOf e e') ∧
    ∃ fresh : List Nat, (map'.map MapEntry.ptr).Perm (map.map MapEntry.ptr ++ fresh) ∧
      fresh.Nodup ∧ ∀ ptr ∈ fresh, t ≤ ptr ∧ ptr < t' := by
  induction map with
  | nil =>
    intro t t' r map' h _ _ _
    cases h
    exact ⟨le_refl _, nofun, [], .refl _, .nil, nofun⟩
  | cons e rest ih =>
    intro t t' r map' h wf ht aligned
    obtain ⟨⟨_, hstart, _⟩, _, wf'⟩ := wellFormed_cons.mp wf
    have unchanged : ∀ t₁, t ≤ t₁ → t ≤ t₁ ∧
      (∀ e' ∈ e :: rest, ∃ f ∈ e :: rest, PartOf f e') ∧
        ∃ fresh : List Nat, ((e :: rest).map MapEntry.ptr).Perm
          ((e :: rest).map MapEntry.ptr ++ fresh) ∧ fresh.Nodup ∧
          ∀ ptr ∈ fresh, t ≤ ptr ∧ ptr < t₁ := by
      intro t₁ ht₁
      refine ⟨ht₁, fun e' he' => ⟨e', he', .refl e'⟩, [], ?_, .nil, nofun⟩
      rw [append_nil]
    simp only [splitEntries] at h
    split at h
    · rename_i crossing
      split at h
      · rename_i failed
        cases h
        exact unchanged _ (MapEntryInner.split_tick failed)
      · rename_i first second t₁ hsplit
        have ht₁ := MapEntryInner.split_tick hsplit
        have hd : (threshold - e.start) % pageSize = 0 := by
          simp only [pageSize] at *
          omega
        obtain ⟨⟨al0, al1⟩, held⟩ :=
          MapEntryInner.split_held hsplit (aligned e mem_cons_self) hd
        obtain ⟨amap0, amap1, rfl, rfl⟩ := MapEntryInner.split_ok hsplit
        split at h
        · rename_i failed
          have := tryAlloc_tick failed
          cases h
          exact unchanged _ (by omega)
        · rename_i ptr t₂ boxed
          have ht₂ := tryAlloc_tick boxed
          have hptr : ptr = t₁ := by
            unfold tryAlloc at boxed
            split at boxed <;> cases boxed
            rfl
          cases hrest : splitEntries env threshold rest t₂ with
          | mk r' out =>
            rw [hrest] at h
            dsimp only at h
            cases h
            obtain ⟨ht₃, parts, fresh, perm, nodup, bounds⟩ :=
              ih hrest wf' ht fun f hf => aligned f (mem_cons_of_mem _ hf)
            refine ⟨by omega, ?_, ptr :: fresh, ?_, ?_, ?_⟩
            · intro e' he'
              obtain rfl | he' := mem_cons.mp he'
              · exact ⟨e, mem_cons_self, ⟨le_refl _, le_of_lt crossing.2⟩, rfl,
                  fun _ => al0, fun p hp => held p (.inl hp)⟩
              · obtain rfl | he' := mem_cons.mp he'
                · exact ⟨e, mem_cons_self, ⟨le_of_lt crossing.1, le_refl _⟩, rfl,
                    fun _ => al1, fun p hp => held p (.inr hp)⟩
                · obtain ⟨f, hf, part⟩ := parts e' he'
                  exact ⟨f, mem_cons_of_mem _ hf, part⟩
            · refine (((perm.cons ptr).trans ?_).cons e.ptr)
              exact perm_middle.symm
            · refine nodup_cons.mpr ⟨fun hmem => ?_, nodup⟩
              have := bounds ptr hmem
              omega
            · intro q hq
              obtain rfl | hq := mem_cons.mp hq
              · omega
              · have := bounds q hq
                omega
    · cases hrest : splitEntries env threshold rest t with
      | mk r' out =>
        rw [hrest] at h
        cases h
        obtain ⟨ht₃, parts, fresh, perm, nodup, bounds⟩ :=
          ih hrest wf' ht fun f hf => aligned f (mem_cons_of_mem _ hf)
        refine ⟨ht₃, ?_, fresh, perm.cons e.ptr, nodup, bounds⟩
        intro e' he'
        obtain rfl | he' := mem_cons.mp he'
        · exact ⟨e', mem_cons_self, .refl e'⟩
        · obtain ⟨f, hf, part⟩ := parts e' he'
          exact ⟨f, mem_cons_of_mem _ hf, part⟩

end Split

end BadgerOS.Vmm
