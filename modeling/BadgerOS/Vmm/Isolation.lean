import BadgerOS.Vmm.Pages

/-!
# Private memory after a fork

Parent and child share the anons of private memory until one of them writes. A
store by one side is compared with a run in which it was not made: the other side
cannot tell the two apart.
-/

namespace BadgerOS.Vmm

open Fallible Intervals Function Option List World Coupled

/-- Change one byte of a page. -/
def World.poke (w : World) (paddr offset : Nat) (byte : BitVec 8) : World :=
  { w with mem := update w.mem paddr (update (w.mem paddr) offset byte) }

/-- A store to memory. It goes through a page table entry that is writable. -/
def store (i vaddr : Nat) (byte : BitVec 8) : Kernel Unit := do
  let s ← space i
  match s.pmap (vaddr / pageSize) with
  | some pte =>
    if Has pte.flags Mmu.W then modify (·.poke pte.paddr (vaddr % pageSize) byte) else fail .efault
  | none => fail .efault

/-- A load from a page that is mapped. -/
def peek (i vaddr : Nat) : Kernel (BitVec 8) := fun w =>
  (w.spaces[i]?).map fun s =>
    match s.pmap (vaddr / pageSize) with
    | some pte =>
      (if Has pte.flags Mmu.R then .ok (w.mem pte.paddr (vaddr % pageSize)) else .error .efault, w)
    | none => (.error .efault, w)

/-- A load from memory, with a page fault if the page is not mapped. -/
def load (env : Env) (i vaddr : Nat) : Kernel (BitVec 8) := do
  let s ← space i
  if mappedProt s.pmap vaddr &&& Prot.READ = Prot.READ then peek i vaddr
  else do
    fault env i vaddr Prot.READ 1
    peek i vaddr

/-- What a process does to its memory. -/
inductive Access where
  | fault (i vaddr : Nat) (access : ProtFlags) (size : Nat)
  | store (i vaddr : Nat) (byte : BitVec 8)
  deriving DecidableEq, Repr

def accessExec (env : Env) : Access → Kernel Unit
  | .fault i vaddr access size => fault env i vaddr access size
  | .store i vaddr byte => store i vaddr byte

/-- What a process does before it forks. -/
inductive Use where
  | map (i size hint start stop : Nat) (mapFlags : MapFlags) (protFlags : ProtFlags)
      (mapping : Option Mapping)
  | access (call : Access)
  deriving DecidableEq, Repr

def useExec (env : Env) : Use → Kernel Unit
  | .map i size hint start stop mapFlags protFlags mapping => do
    let _ ← map env i size hint start stop mapFlags protFlags mapping
    pure ()
  | .access call => accessExec env call

/-- The bounds end at a `usize` address. -/
def Use.Legal : Use → Prop
  | .map _ _ _ _ stop _ _ _ => stop < usizeSize
  | .access _ => True

instance : (use : Use) → Decidable use.Legal
  | .map _ _ _ _ stop _ _ _ => inferInstanceAs (Decidable (stop < usizeSize))
  | .access _ => inferInstanceAs (Decidable True)

/-- What a load returns after some accesses. -/
def loadAfter (env : Env) (calls : List Access) (i vaddr : Nat) (w : World) :
    Option (Except Errno (BitVec 8)) :=
  (runAll (accessExec env) (fun _ _ => True) calls w).bind fun w =>
    (load env i vaddr w).map Prod.fst

section Accesses

variable {env : Env} {i vaddr : Nat} {byte : BitVec 8} {w w' : World}

theorem store_eq {r : Except Errno Unit} (h : store i vaddr byte w = some (r, w')) :
    (r ≠ .ok () ∧ w' = w) ∨ ∃ s pte, w.spaces[i]? = some s ∧
    s.pmap (vaddr / pageSize) = some pte ∧
      Has pte.flags Mmu.W ∧ w' = w.poke pte.paddr (vaddr % pageSize) byte := by
  obtain ⟨e, failed, rfl⟩ | ⟨s, w₁, found, h⟩ := bind_eq_some.mp h
  · obtain ⟨s, _, hs⟩ := map_eq_some_iff.mp failed
    cases hs
  · obtain ⟨s', hs, found⟩ := map_eq_some_iff.mp found
    cases found
    cases hpte : s.pmap (vaddr / pageSize) with
    | none =>
      simp only [hpte] at h
      cases h
      exact .inl ⟨nofun, rfl⟩
    | some pte =>
      simp only [hpte] at h
      split at h
      · rename_i write
        cases h
        exact .inr ⟨s, pte, hs, hpte, write, rfl⟩
      · cases h
        exact .inl ⟨nofun, rfl⟩

/-- A store keeps what does not speak about the contents of pages. -/
theorem store_keeps {P : World → Prop} (pokes : ∀ p o b, P (w.poke p o b)) (h : P w) :
    wlp (store i vaddr byte) (fun _ => P) P w := by
  apply wlp_same.mpr
  intro r w' run
  obtain ⟨_, rfl⟩ | ⟨s, pte, _, _, _, rfl⟩ := store_eq run
  · exact h
  · exact pokes _ _ _

theorem accounted_use {use : Use} (legal : use.Legal) (h : Base w ∧ Accounted env w ∧ Granted w) :
    wlp (useExec env use) (fun _ w => Base w ∧ Accounted env w ∧ Granted w)
      (fun w => Base w ∧ Accounted env w ∧ Granted w) w := by
  cases use with
  | map i size hint start stop mapFlags protFlags mapping =>
    rw [useExec, wlp_bind]
    refine (map_keeps accounted_plain.kept accounted_fault (fun w h => h.elim id id) legal h
      (fun _ => ⟨trivial, trivial⟩) (accounted_insert rfl)).imp fun _ w' h' => wlp_pure.mpr h'
  | access call =>
    cases call with
    | fault i vaddr access size => exact accounted_fault.fault h
    | store i vaddr byte =>
      apply store_keeps
      · intro p o b
        exact ⟨⟨h.1.ok, h.1.boxes, h.1.fresh, h.1.aligned⟩,
          ⟨h.2.1.held, h.2.1.leaves⟩, h.2.2⟩
      · exact h

end Accesses

/-- What keeps the private memory of the space `a` from the space `b`. -/
structure Apart (a b : Nat) (w : World) : Prop where
  /-- A private page that `a` can write is an anon that `b` has no handle of. -/
  writes : ∀ {sa}, w.spaces[a]? = some sa → ∀ {n pte flags}, sa.pmap n = some pte →
    Has pte.flags Mmu.W → flagsAt sa.map (n * pageSize) = some flags → ¬ Has flags.2 SHARED →
    slotAt sa.map (n * pageSize) = some pte.paddr ∧ ∀ sb, w.spaces[b]? = some sb →
      ¬ Held sb.map pte.paddr
  /-- Where `b` has mapped an anon of `a`, it is its own too. -/
  maps : ∀ {sa sb}, w.spaces[a]? = some sa → w.spaces[b]? = some sb → ∀ {n pte},
    sb.pmap n = some pte → slotAt sa.map (n * pageSize) = some pte.paddr →
    slotAt sb.map (n * pageSize) = some pte.paddr

variable {i j t t' vaddr size : Nat} {sp s : Space} {map : List MapEntry} {env : Env} {own : Nat →
  Prop} {copy : Option (Nat × Option Nat)} {w : World} {byte : BitVec 8}

section Apart

variable {a b k : Nat} {w' : World} {s' : Space}

theorem get_set {xs : List Space} {x y : Space} (h : (xs.set i x)[j]? = some y) :
    (i = j ∧ y = x) ∨ (i ≠ j ∧ xs[j]? = some y) := by
  by_cases hij : i = j
  · subst hij
    rw [List.getElem?_set_self (by simpa using (List.getElem?_eq_some_iff.mp h).1)] at h
    exact .inl ⟨rfl, (some.inj h).symm⟩
  · rw [getElem?_set_ne hij] at h
    exact .inr ⟨hij, h⟩

section

variable (separate : Separate env) (h : Accounted env w) (hs : w.spaces[i]? = some sp)
include separate h hs

/-- No page of a space is new. -/
theorem Accounted.not_new {n : Nat} {pte : Pte} (hpte : sp.pmap n = some pte) :
    ¬ Allotted env w.tick t pte.paddr := by
  intro new
  obtain known | borrowed := h.leaves sp (mem_of_getElem? hs) n pte hpte
  · exact separate.fresh new known
  · exact separate.not_borrowed new borrowed

theorem Accounted.not_held_new {p : Nat} (held : Held sp.map p) : ¬ Allotted env w.tick t p :=
  fun new => separate.fresh new (h.held_in hs held)

end

/-- A page fault of any space keeps two spaces apart. -/
theorem Apart.fault (separate : Separate env) (hab : a ≠ b) (accounted : Accounted env w)
    (apart : Apart a b w) (effect : FaultEffect env k w s s' w') : Apart a b w' := by
  constructor
  · intro sa ha n pte flags hpte write hflags hshared
    rw [effect.after] at ha ⊢
    obtain ⟨rfl, rfl⟩ | ⟨_, ha'⟩ := get_set ha
    · -- The space that writes had the fault.
      rw [effect.flagsAt_eq] at hflags
      rw [getElem?_set_ne hab]
      obtain ⟨old, slot⟩ | ⟨flags', hflags', leaf⟩ := effect.leaves n pte hpte
      · rw [slot]
        exact apart.writes effect.before old write hflags hshared
      · obtain rfl : flags' = flags := some.inj (hflags'.symm.trans hflags)
        obtain ⟨slot, own⟩ | ⟨_, shared⟩ := leaf.page
        · refine ⟨slot, fun sb hb => ?_⟩
          obtain shared | new | alone := own write
          · exact absurd shared hshared
          · exact fun held => accounted.not_held_new separate hb held new
          · exact alone b sb (Ne.symm hab) hb
        · exact absurd (shared write) hshared
    · obtain ⟨slot, free⟩ := apart.writes ha' hpte write hflags hshared
      refine ⟨slot, fun sb hb held => ?_⟩
      obtain ⟨rfl, rfl⟩ | ⟨_, hb'⟩ := get_set hb
      · obtain held | new := effect.held _ held
        · exact free s effect.before held
        · exact accounted.not_new separate ha' hpte new
      · exact free sb hb' held
  · intro sa sb ha hb n pte hpte slot
    rw [effect.after] at ha hb
    obtain ⟨rfl, rfl⟩ | ⟨_, ha'⟩ := get_set ha
    · obtain ⟨rfl, _⟩ | ⟨_, hb'⟩ := get_set hb
      · exact absurd rfl hab
      obtain same | ⟨p, hp, new⟩ := effect.slots n
      · exact apart.maps effect.before hb' hpte (same ▸ slot)
      · obtain rfl : p = pte.paddr := some.inj (hp.symm.trans slot)
        exact absurd new (accounted.not_new separate hb' hpte)
    · obtain ⟨rfl, rfl⟩ | ⟨_, hb'⟩ := get_set hb
      · obtain ⟨old, same⟩ | ⟨_, _, leaf⟩ := effect.leaves n pte hpte
        · rw [same]
          exact apart.maps ha' effect.before old slot
        · obtain ⟨own, _⟩ | ⟨borrowed, _⟩ := leaf.page
          · exact own
          · exact absurd borrowed
              (separate.not_borrowed (accounted.held_in ha' (held_of_slotAt slot)))
      · exact apart.maps ha' hb' hpte slot

theorem Apart.poke (h : Apart a b w) (p o : Nat) (byte : BitVec 8) : Apart a b (w.poke p o byte) :=
  ⟨h.writes, h.maps⟩

end Apart

section Fork

/-- What is left of the page table of the parent. -/
theorem forkEntries_pmap : ∀ {pmap pmap' : PhysMap} {t t' : Nat} {r : Except Errno Unit}
    {new : List MapEntry},
    forkEntries env map pmap t = (r, new, pmap', t') → ∀ n pte, pmap' n = some pte →
    ∃ old, pmap n = some old ∧ pte.paddr = old.paddr ∧
      (Has pte.flags Mmu.W → Has old.flags Mmu.W) ∧
      (r = .ok () → Has pte.flags Mmu.W → ∀ e ∈ map, Has e.inner.mapFlags PRIVATE →
        Has e.inner.protFlags Prot.WRITE → ¬ PhysMap.InPages e.start (e.stop - e.start) n) := by
  induction map with
  | nil =>
    intro pmap pmap' t t' r new h n pte hpte
    cases h
    exact ⟨pte, hpte, rfl, id, by simp⟩
  | cons e rest ih =>
    intro pmap pmap' t t' r new h n pte hpte
    -- The page table after the entry was made copy on write.
    have cow : ∀ pte, cowProtect env e t pmap n = some pte → ∃ old, pmap n = some old ∧
        pte.paddr = old.paddr ∧ (Has pte.flags Mmu.W → Has old.flags Mmu.W) ∧
        (Has pte.flags Mmu.W → Has e.inner.mapFlags PRIVATE → Has e.inner.protFlags
          Prot.WRITE → ¬ PhysMap.InPages e.start (e.stop - e.start) n) := by
      intro pte hpte
      unfold cowProtect at hpte
      split at hpte
      · unfold PhysMap.protect at hpte
        split at hpte
        · obtain ⟨old, hold, rfl⟩ := map_eq_some_iff.mp hpte
          have none : ∀ f : MmuFlags, ¬ Has (f &&& (intoMmuFlags (Prot.READ ||| Prot.EXEC) |||
              ~~~ Mmu.RWX)) Mmu.W := by
            intro f has
            rw [Has, BitVec.and_assoc] at has
            apply has
            exact BitVec.and_zero
          exact ⟨old, hold, rfl, fun h => h.of_and, fun h => absurd h (none _)⟩
        · rename_i out
          rw [not_or] at out
          exact ⟨pte, hpte, rfl, id, fun _ _ _ => out.1⟩
      · rename_i plain
        exact ⟨pte, hpte, rfl, id, fun _ hp hw => absurd ⟨hp, hw⟩ plain⟩
    simp only [forkEntries] at h
    split at h
    · cases h
      obtain ⟨old, hold, hp, hw, _⟩ := cow pte hpte
      exact ⟨old, hold, hp, hw, by rintro ⟨⟩⟩
    · rename_i ptr t₁ _
      cases hrest : forkEntries env rest (cowProtect env e t pmap) t₁ with
      | mk r₁ out =>
        rw [hrest] at h
        cases h
        obtain ⟨mid, hmid, hp, hw, clear⟩ := ih hrest n pte hpte
        obtain ⟨old, hold, hp', hw', clear'⟩ := cow mid hmid
        refine ⟨old, hold, hp.trans hp', fun h => hw' (hw h), fun ok h f hf => ?_⟩
        obtain rfl | hf := mem_cons.mp hf
        · exact clear' (hw h)
        · exact clear ok h f hf

theorem slotAt_unboxed {map' : List MapEntry}
    (h : map'.map MapEntry.unboxed = map.map MapEntry.unboxed) (v : Nat) :
    slotAt map' v = slotAt map v := by
  have key : ∀ m : List MapEntry, slotAt (m.map MapEntry.unboxed) v = slotAt m v := by
    intro m
    unfold slotAt
    rw [entryAt, find, find?_map, bind_map]
    rfl
  rw [← key map', h, key]

/-- The spaces after a successful fork. -/
theorem forked_get (child : Space) (pmap : PhysMap) (hs : w.spaces[i]? = some s) :
    ((w.setPmap i fun _ => pmap).spaces ++ [child])[i]? = some ⟨s.ptr, s.map, pmap⟩ ∧
    ((w.setPmap i fun _ => pmap).spaces ++ [child])[w.spaces.length]? = some child := by
  have hi := (List.getElem?_eq_some_iff.mp hs).1
  have hlen : (w.setPmap i fun _ => pmap).spaces.length = w.spaces.length := length_modify _ _ _
  constructor
  · rw [getElem?_append_left (hlen ▸ hi)]
    exact setPmap_get (fun _ => pmap) hs
  · rw [getElem?_append_right (Nat.le_of_eq hlen), hlen, Nat.sub_self]
    rfl

/-- Parent and child are apart if `fork` takes the write permission of all private
memory. -/
theorem fork_apart (base : Base w) (granted : Granted w) (hs : w.spaces[i]? = some s)
    (cow : ∀ e ∈ s.map, Has e.inner.protFlags Prot.WRITE → ¬ Has e.inner.mapFlags SHARED →
      Has e.inner.mapFlags PRIVATE) :
    wlp (fork env i) (fun _ w₁ => Apart i w.spaces.length w₁ ∧ Apart w.spaces.length i w₁)
      (fun _ => True) w := by
  have wf := base.ok.wellFormed (maps_get hs)
  apply wlp_fork
  · intros
    trivial
  · intro s' new pmap t hs' forked
    obtain rfl : s = s' := some.inj (hs.symm.trans hs')
    obtain ⟨parent, child⟩ := forked_get ⟨t, new, fun _ => none⟩ pmap hs
    constructor
    · constructor
      · -- The parent cannot write to its private pages any more.
        intro sa ha n pte flags hpte write hflags hshared
        cases some.inj (parent.symm.trans ha)
        obtain ⟨old, hold, _, hw, clear⟩ := forkEntries_pmap forked n pte hpte
        obtain ⟨flags', hflags', may⟩ := granted s (mem_of_getElem? hs) n old hold (hw write)
        obtain rfl : flags' = flags := some.inj (hflags'.symm.trans hflags)
        obtain ⟨e, found, rfl⟩ := map_eq_some_iff.mp hflags'
        obtain ⟨he, around⟩ := wf.ordered.find_eq_some.mp found
        have inside : PhysMap.InPages e.start (e.stop - e.start) n := by
          have := wf.aligned e he
          simp only [PhysMap.InPages, Intervals.Around, pageSize] at *
          omega
        exact absurd inside (clear rfl write e he (cow e he may hshared) may)
      · intro sa sb _ hb n pte hpte
        cases some.inj (child.symm.trans hb)
        cases hpte
    · constructor
      · intro sa ha n pte flags hpte
        cases some.inj (child.symm.trans ha)
        cases hpte
      · intro sa sb ha hb n pte _ slot
        cases some.inj (child.symm.trans ha)
        cases some.inj (parent.symm.trans hb)
        exact (slotAt_unboxed (forkEntries_unboxed forked) _).symm.trans slot

theorem Accounted.fork (h : Accounted env w) : wlp (fork env i) (fun _ => Accounted env)
    (fun _ => True) w := by
  apply wlp_fork
  · intros
    trivial
  · intro s new pmap t hs forked
    obtain ⟨ht, _, boxes⟩ := forkEntries_boxes forked
    have ht : w.tick ≤ t + 1 := Nat.le_succ_of_le ht
    constructor
    · intro e he p hp
      rw [entries_eq, maps, map_append, flatten_append, mem_append, mem_append] at he
      obtain (he | he) | he := he
      · have he : e ∈ w.entries := by
          rw [entries_eq, ← maps_setPmap w i fun _ => pmap]
          exact mem_append_left _ he
        exact (h.held e he p hp).mono ht
      · have he : e ∈ new := by simpa using he
        obtain ⟨f, hf, same⟩ := (boxes e he).2.2
        exact (h.held_in hs ⟨f, hf, same ▸ hp⟩).mono ht
      · exact (h.held e (mem_append_right _ he) p hp).mono ht
    · intro s' hs' n pte hpte
      obtain hs' | hs' := mem_append.mp hs'
      · obtain hs' | ⟨x, hx, rfl⟩ := mem_modify hs'
        · exact (h.leaves s' hs' n pte hpte).imp_left (·.mono ht)
        · obtain rfl : s = x := some.inj (hs.symm.trans hx)
          obtain ⟨old, hold, hp, _⟩ := forkEntries_pmap forked n pte hpte
          rw [hp]
          exact (h.leaves s (mem_of_getElem? hs) n old hold).imp_left (·.mono ht)
      · rw [mem_singleton.mp hs'] at hpte
        cases hpte

end Fork

/-- The memory after a page was copied, or filled with zeroes. -/
def copied (copy : Option (Nat × Option Nat)) (mem : Memory) : Memory :=
  copy.elim mem fun (p, orig) => update mem p (orig.elim (fun _ => 0) mem)

/-- What a page fault copies: from an anon of its space or from a page that is no
anon, into a new one. -/
def CopiesFrom (env : Env) (own : Nat → Prop) (t t' : Nat) (copy : Option (Nat × Option Nat)) :
    Prop :=
  ∀ p orig, copy = some (p, orig) → Allotted env t t' p ∧ ∀ q ∈ orig, own q ∨
    Borrowed env q

section Oblivious

theorem CopiesFrom.mono {own' : Nat → Prop} {t₁ t₂ : Nat}
    (h : CopiesFrom env own t₁ t₂ copy) (ht : t ≤ t₁) (ht' : t₂ ≤ t')
    (sub : ∀ q, own q → own' q) : CopiesFrom env own' t t' copy := by
  intro p orig hc
  obtain ⟨⟨t₀, h₀, h₁, hp⟩, source⟩ := h p orig hc
  exact ⟨⟨t₀, by omega, by omega, hp⟩, fun q hq => (source q hq).imp_left (sub q)⟩

theorem copiesFrom_none : CopiesFrom env own t t' none := nofun

/-- What is in memory does not matter to `alloc_page` of an overlay. -/
theorem AnonMap.allocPage_oblivious (env : Env) (self : AnonMap) (offset : Nat)
    (orig : Option Nat) (t : Nat) :
    ∃ r self' t' copy, (∀ mem, self.allocPage env offset orig mem t = (r, self', copied copy
      mem, t')) ∧ ∀ p o, copy = some (p, o) → o = orig ∧ Allotted env t t' p := by
  cases hgrow : self.grow env offset t with
  | mk r out =>
    obtain ⟨self₁, t₁⟩ := out
    have ht := grow_tick hgrow
    cases r with
    | error e =>
      exact ⟨.error e, self₁, t₁, none,
        fun _ => by simp only [allocPage, hgrow]; rfl, nofun⟩
    | ok u =>
      cases hpage : env.pageAlloc t₁ with
      | none =>
        exact ⟨.error .enomem, self₁, t₁ + 1, none,
          fun _ => by simp only [allocPage, hgrow, hpage]; rfl, nofun⟩
      | some p =>
        cases hbox : tryAlloc env (t₁ + 1) with
        | mk r t₂ =>
          cases r with
          | error e =>
            exact ⟨.error e, self₁, t₂, none,
              fun _ => by simp only [allocPage, hgrow, hpage, hbox]; rfl, nofun⟩
          | ok ptr =>
            obtain ⟨hok, rfl⟩ := tryAlloc_ok hbox
            refine ⟨.ok ⟨p, false, true, false⟩, ⟨self₁.offset,
              self₁.pages.set ((offset - self₁.offset) / pageSize) (some p)⟩, t₁ + 1 + 1,
                some (p, orig),
              fun mem => ?_, ?_⟩
            · simp only [allocPage, hgrow, hpage, hbox]
              cases orig <;> rfl
            · rintro _ _ ⟨⟩
              exact ⟨rfl, t₁, ht, by omega, hpage, hok⟩

theorem MapEntryInner.allocPage_oblivious (env : Env) (self : MapEntryInner) (handles : Handles)
    (offset : Nat) (forWriting : Bool) (t : Nat) :
    ∃ r guard t' copy, (∀ mem, self.allocPage env handles offset forWriting mem t =
      (r, guard, copied copy mem, t')) ∧ CopiesFrom env self.Holds t t' copy := by
  cases hfind : self.findPage env handles offset forWriting t with
  | mk found t₁ =>
    have ht := findPage_tick hfind
    cases found with
    | error e =>
      exact ⟨.error e, self, t₁, none,
        fun _ => by simp only [allocPage, hfind]; rfl, copiesFrom_none⟩
    | ok source =>
      cases source with
      | mappable page len =>
        exact ⟨.ok (page, len), self, t₁, none,
          fun _ => by simp only [allocPage, hfind]; rfl, copiesFrom_none⟩
      | copy orig =>
        have hsource := findPage_copy hfind
        cases hown : self.ownAmap env handles t₁ with
        | mk r t₂ =>
          have ht₂ := ownAmap_tick hown
          cases r with
          | error e =>
            exact ⟨.error e, self, t₂, none,
              fun _ => by simp only [allocPage, hfind, hown]; rfl, copiesFrom_none⟩
          | ok amap =>
            obtain ⟨r, val, t₃, copy, same, new⟩ :=
              AnonMap.allocPage_oblivious env amap.val offset orig t₂
            have copies : CopiesFrom env self.Holds t t₃ copy := by
              intro p o hc
              obtain ⟨rfl, t₀, h₀, h₁, hp⟩ := new p o hc
              refine ⟨⟨t₀, by omega, h₁, hp⟩, fun q hq => ?_⟩
              obtain own | ⟨m, t₁, len, _, page, rfl, alloc⟩ := hsource q hq
              · exact .inl (holds_of_anonAt own)
              · exact .inr (.inr ⟨_, _, _, page, len, 0, .inr alloc, .inl rfl, by simp⟩)
            cases r with
            | error e =>
              exact ⟨.error e, { self with amap := some ⟨amap.ptr, val⟩ }, t₃, copy,
                fun mem => by simp only [allocPage, hfind, hown, same mem], copies⟩
            | ok page =>
              exact ⟨.ok (page, pageSize), { self with amap := some ⟨amap.ptr, val⟩ }, t₃,
                copy, fun mem => by simp only [allocPage, hfind, hown, same mem], copies⟩

theorem MapEntryInner.resolve_oblivious (env : Env) (self : MapEntryInner) (handles : Handles)
    (offset : Nat) (access : ProtFlags) (t : Nat) :
    ∃ r guard t' copy, (∀ mem, self.resolve env handles offset access mem t =
      (r, guard, copied copy mem, t')) ∧ CopiesFrom env self.Holds t t' copy := by
  obtain ⟨r, guard, t', copy, same, copies⟩ := allocPage_oblivious env self handles offset
    (access = Prot.WRITE) (t + 1)
  have copies := copies.mono (Nat.le_succ t) (Nat.le_refl t') fun _ h => h
  unfold resolve
  cases self.getPage env handles offset t with
  | none => exact ⟨r, guard, t', copy, same, copies⟩
  | some page =>
    by_cases hw : access = Prot.WRITE ∧ page.1.writable = false
    · refine ⟨r, guard, t', copy, fun mem => ?_, copies⟩
      simp only [hw.1, hw.2] at same ⊢
      exact same mem
    · exact ⟨.ok page, self, t + 1, none,
        fun mem => by simp only [if_neg hw]; rfl, copiesFrom_none⟩

theorem installPage_oblivious (env : Env) (i vaddr stop size : Nat) (guard : MapEntryInner)
    (page : MappablePage) (w : World) (mem : Memory) :
    installPage env i vaddr stop guard page size { w with mem } =
      (installPage env i vaddr stop guard page size w).map fun out =>
        (out.1, { out.2 with mem }) := by
  unfold installPage
  cases usizeSub stop (pageFloor vaddr) with
  | none => rfl
  | some rest =>
    simp only [lift_some_bind, Fallible.get_bind, modify_bind]
    split
    · rfl
    · cases usizeSub (min size rest) _ <;> rfl

theorem installPage_tick {stop : Nat} {guard : MapEntryInner} {page : MappablePage} :
    wlp (installPage env i vaddr stop guard page size) (fun _ w₁ => w.tick ≤ w₁.tick)
      (fun w₁ => w.tick ≤ w₁.tick) w := by
  simp only [installPage, wlp_bind, wlp_lift, wlp_get, wlp_modify]
  intro rest _
  split
  · exact wlp_fail.mpr (Nat.le_succ _)
  · exact wlp_lift.mpr fun _ _ => Nat.le_succ _

/-- The same page fault with other memory. -/
theorem faultImpl_oblivious (env : Env) (i j vaddr : Nat) (access : ProtFlags) (w : World) :
    ∃ copy : Option (Nat × Option Nat), (∀ mem, faultImpl env i j vaddr access { w with mem } =
        (faultImpl env i j vaddr access w).map fun out =>
          (out.1, { out.2 with mem := copied copy mem })) ∧
      ∀ r w₁, faultImpl env i j vaddr access w = some (r, w₁) →
        CopiesFrom env (fun q => ∃ s, w.spaces[i]? = some s ∧ Held s.map q)
          w.tick w₁.tick copy := by
  unfold faultImpl
  cases hs : w.spaces[i]? with
  | none =>
    exact ⟨none,
      fun mem => by simp [Bind.bind, andThen, space, hs], fun _ _ _ => copiesFrom_none⟩
  | some s =>
    have found (mem : Memory) : space i { w with mem } = some (.ok s, { w with mem }) := by
      rw [space, hs, map_some]
    simp only [bind_of_ok (found _)]
    cases hentry : s.map[j]? with
    | none => exact ⟨none, fun mem => rfl, fun _ _ _ => copiesFrom_none⟩
    | some entry =>
      simp only [lift_some_bind]
      split
      · exact ⟨none, fun mem => rfl, fun _ _ _ => copiesFrom_none⟩
      simp only [modify_bind]
      split
      · exact ⟨none, fun mem => rfl, fun _ _ _ => copiesFrom_none⟩
      cases usizeSub (pageFloor vaddr) entry.start with
      | none => exact ⟨none, fun mem => rfl, fun _ _ _ => copiesFrom_none⟩
      | some offset =>
        simp only [lift_some_bind]
        obtain ⟨r, guard, t', copy, same, copies⟩ :=
          MapEntryInner.resolve_oblivious env entry.inner w.handles offset access w.tick
        have own (q : Nat) hq : ∃ s₁, some s = some s₁ ∧ Held s₁.map q :=
          ⟨s, rfl, entry, mem_of_getElem? hentry, hq⟩
        obtain ⟨w₂, ticks, found⟩ : ∃ w₂ : World, t' ≤ w₂.tick ∧
          ∀ mem, resolvePage env i j offset access entry
            (({ w with mem } : World).setPmap i (evict vaddr)) =
            some (r.map fun x => (x.1, x.2, guard), { w₂ with mem := copied copy mem }) := by
          refine ⟨{ (w.setPmap i (evict vaddr)).setInner i j guard with
            tick := t' }, le_rfl, fun mem => ?_⟩
          have handles : (({ w with mem } : World).setPmap i (evict vaddr)).handles = w.handles :=
            handles_setPmap { w with mem } i _
          have key := same mem
          unfold resolvePage
          rw [handles]
          dsimp only [setPmap] at key ⊢
          rw [key]
          rfl
        refine ⟨copy, ?_⟩
        cases r with
        | error e =>
          simp only [bind_of_error (found _)]
          refine ⟨fun mem => rfl, ?_⟩
          rintro _ _ ⟨⟩
          exact copies.mono le_rfl ticks own
        | ok page =>
          simp only [bind_of_ok (found _)]
          refine ⟨fun mem => ?_, fun r w₁ run => ?_⟩
          · exact installPage_oblivious env i vaddr entry.stop page.2 guard page.1
              { w₂ with mem := copied copy w.mem } (copied copy mem)
          · have later := wlp_same.mp installPage_tick r w₁ run
            exact copies.mono le_rfl (Nat.le_trans ticks later) own

end Oblivious

/-- Two states that the space `b` cannot tell apart at the page `n`: they differ in
the anons `S`, which it does not have. -/
structure Alike (env : Env) (b n : Nat) (S : Nat → Prop) (w w' : World) : Prop where
  same : w' = { w with mem := w'.mem }
  agree : ∀ p, ¬ S p → w'.mem p = w.mem p
  anons : ∀ p, S p → Allotted env 0 w.tick p
  held : ∀ {s}, w.spaces[b]? = some s → ∀ p, S p → ¬ Held s.map p
  leaf : ∀ {s}, w.spaces[b]? = some s → ∀ pte, s.pmap n = some pte → ¬ S pte.paddr

/-- The difference spreads to the copies of an anon. -/
def Spread (S : Nat → Prop) (copy : Option (Nat × Option Nat)) (p : Nat) : Prop :=
  S p ∨ ∃ orig, copy = some (p, some orig) ∧ S orig

def Twins (env : Env) (b n : Nat) (w w' : World) : Prop :=
  Base w ∧ Accounted env w ∧ ∃ S, Alike env b n S w w'

section Coupling

variable {b n k : Nat} {S : Nat → Prop} {w' w₁ : World}

theorem copied_agree {mem mem' : Memory} (agree : ∀ p, ¬ S p → mem' p = mem p) (p : Nat)
    (hp : ¬ Spread S copy p) : copied copy mem' p = copied copy mem p := by
  rw [Spread, not_or] at hp
  cases copy with
  | none => exact agree p hp.1
  | some c =>
    obtain ⟨q, orig⟩ := c
    dsimp only [copied, elim_some]
    by_cases hpq : p = q
    · subst hpq
      rw [update_self, update_self]
      cases orig with
      | none => rfl
      | some o => exact agree o fun ho => hp.2 ⟨o, rfl, ho⟩
    · rw [update_of_ne hpq, update_of_ne hpq]
      exact agree p hp.1

/-- A page fault of any space, in both states. -/
theorem Alike.fault {s' : Space} (separate : Separate env)
    (accounted : Accounted env w) (alike : Alike env b n S w w')
    (effect : FaultEffect env k w s s' { w₁ with mem := copied copy w.mem })
    (copies : CopiesFrom env (fun q => ∃ s, w.spaces[k]? = some s ∧ Held s.map q) w.tick
    w₁.tick copy) :
    Alike env b n (Spread S copy) { w₁ with mem := copied copy w.mem }
      { w₁ with mem := copied copy w'.mem } := by
  have old : ∀ {p t}, S p → ¬ Allotted env w.tick t p :=
    fun hp new => separate.fresh new (alike.anons _ hp)
  -- The space `b` copies none of the anons.
  have source : k = b → ∀ {p}, Spread S copy p → S p := by
    rintro rfl p (hp | ⟨orig, hcopy, horig⟩)
    · exact hp
    · obtain ⟨sk, hk, held⟩ | borrowed := (copies p _ hcopy).2 orig rfl
      · exact absurd held (alike.held hk orig horig)
      · exact absurd borrowed (separate.not_borrowed (alike.anons orig horig))
  have anons : ∀ p, Spread S copy p → Allotted env 0 w₁.tick p := by
    rintro p (hp | ⟨orig, hcopy, _⟩)
    · exact (alike.anons p hp).mono effect.tick
    · exact (copies p _ hcopy).1.since
  have held : ∀ {sb}, w₁.spaces[b]? = some sb → ∀ p, Spread S copy p →
      ¬ Held sb.map p := by
    intro sb hb p hp hheld
    have hb' := effect.after ▸ hb
    obtain ⟨hkb, rfl⟩ | ⟨_, hb'⟩ := get_set hb'
    · have hp := source hkb hp
      obtain hheld | new := effect.held p hheld
      · exact alike.held (hkb ▸ effect.before) p hp hheld
      · exact old hp new
    · obtain hp | ⟨orig, hcopy, _⟩ := hp
      · exact alike.held hb' p hp hheld
      · exact accounted.not_held_new separate hb' hheld (copies p _ hcopy).1
  refine ⟨rfl, copied_agree alike.agree, anons, held, ?_⟩
  intro sb hb pte hpte hp
  have hb' := effect.after ▸ hb
  obtain ⟨hkb, rfl⟩ | ⟨_, hb'⟩ := get_set hb'
  · obtain ⟨hold, _⟩ | ⟨_, _, leaf⟩ := effect.leaves n pte hpte
    · exact alike.leaf (hkb ▸ effect.before) pte hold (source hkb hp)
    · obtain ⟨slot, _⟩ | ⟨borrowed, _⟩ := leaf.page
      · exact held hb _ hp (held_of_slotAt slot)
      · exact separate.not_borrowed (anons _ hp) borrowed
  · obtain hp | ⟨orig, hcopy, _⟩ := hp
    · exact alike.leaf hb' pte hpte hp
    · exact accounted.not_new separate hb' hpte (copies _ _ hcopy).1

variable {access : ProtFlags}

theorem faultImpl_coupled (separate : Separate env) : Coupled (faultImpl env i j vaddr access)
    (Twins env b n) := by
  rintro w w' ⟨base, accounted, S, alike⟩
  obtain ⟨copy, run, copies⟩ := faultImpl_oblivious env i j vaddr access w
  have run' := run w'.mem
  rw [← alike.same] at run'
  cases first : faultImpl env i j vaddr access w with
  | none => exact .inl ⟨rfl, by rw [run', first, map_none]⟩
  | some out =>
    obtain ⟨r, w₁⟩ := out
    rw [first, map_some] at run'
    refine .inr ⟨r, w₁, _, rfl, run', ?_⟩
    have mem := (Prod.mk.inj (some.inj (first.symm.trans ((run w.mem).trans (congrArg _ first))))).2
    obtain ⟨base', accounted', s, s', effect⟩ := wlp_same.mp (faultImpl_step
        (P := fun w₂ => Base w₂ ∧ Accounted env w₂ ∧
          ∃ s s', FaultEffect env i w s s' w₂) (by
      intro s entry w₂ hs hentry step
      obtain ⟨s', effect⟩ := step.effect base hs hentry
      exact ⟨base.faultStep hs hentry step, effect.accounted accounted, s, s', effect⟩))
        r w₁ first
    rw [mem] at base' accounted' effect ⊢
    exact ⟨base', accounted', _, alike.fault separate accounted effect (copies r w₁ first)⟩

theorem space_coupled : Coupled (space i) (Twins env b n) := by
  rintro w w' ⟨base, accounted, S, alike⟩
  have hsame : w'.spaces = w.spaces := by rw [alike.same]
  unfold space
  rw [hsame]
  cases w.spaces[i]? with
  | none => exact .inl ⟨rfl, rfl⟩
  | some s => exact .inr ⟨.ok s, w, w', rfl, rfl, base, accounted, S, alike⟩

theorem faultLoop_coupled {bound : Nat} (separate : Separate env) :
    ∀ {vaddr size : Nat}, Coupled (faultLoop env i j access bound vaddr size)
      (Twins env b n) := by
  induction bound with
  | zero => exact lift _
  | succ bound ih =>
    intro vaddr size
    unfold faultLoop
    split
    · exact pure _
    · exact bind (faultImpl_coupled separate) fun _ => ih

theorem fault_coupled (separate : Separate env) : Coupled (fault env i vaddr access size)
    (Twins env b n) := by
  apply space_coupled.bind
  intro s
  split
  · exact faultLoop_coupled separate
  · exact fail _

theorem Alike.poke (alike : Alike env b n S w w') (p o : Nat) (byte : BitVec 8) :
    Alike env b n S (w.poke p o byte) (w'.poke p o byte) := by
  refine ⟨?_, fun q hq => ?_, alike.anons, alike.held, alike.leaf⟩
  · conv_lhs => rw [alike.same]
    rfl
  · dsimp only [World.poke]
    by_cases hqp : q = p
    · subst hqp
      rw [update_self, update_self, alike.agree q hq]
    · rw [update_of_ne hqp, update_of_ne hqp, alike.agree q hq]

theorem Base.poke (h : Base w) (p o : Nat) (byte : BitVec 8) : Base (w.poke p o byte) :=
  ⟨h.ok, h.boxes, h.fresh, h.aligned⟩

theorem Accounted.poke (h : Accounted env w) (p o : Nat) (byte : BitVec 8) :
    Accounted env (w.poke p o byte) :=
  ⟨h.held, h.leaves⟩

theorem store_coupled : Coupled (store i vaddr byte) (Twins env b n) := by
  apply space_coupled.bind
  intro s
  split
  · split
    · rintro w w' ⟨base, accounted, S, alike⟩
      exact .inr ⟨.ok (), _, _, rfl, rfl, base.poke _ _ _, accounted.poke _ _ _, S,
        alike.poke _ _ _⟩
    · exact fail _
  · exact fail _

theorem access_coupled (separate : Separate env) (call : Access) : Coupled (accessExec env call)
    (Twins env b n) := by
  cases call with
  | fault => exact fault_coupled separate
  | store => exact store_coupled

theorem peek_coupled : Coupled (peek b vaddr) (Twins env b (vaddr / pageSize)) := by
  rintro w w' ⟨base, accounted, S, alike⟩
  have hsame : w'.spaces = w.spaces := by rw [alike.same]
  unfold peek
  rw [hsame]
  cases hs : w.spaces[b]? with
  | none => exact .inl ⟨rfl, rfl⟩
  | some s =>
    right
    cases hpte : s.pmap (vaddr / pageSize) with
    | none =>
      exact ⟨.error .efault, w, w', by simp [hpte], by simp [hpte], base, accounted, S, alike⟩
    | some pte =>
      refine ⟨if Has pte.flags Mmu.R then .ok (w.mem pte.paddr (vaddr % pageSize))
        else .error .efault, w, w', by simp [hpte], ?_, base, accounted, S, alike⟩
      simp [hpte, alike.agree _ (alike.leaf hs pte hpte)]

theorem load_coupled (separate : Separate env) : Coupled (load env b vaddr)
    (Twins env b (vaddr / pageSize)) := by
  apply space_coupled.bind
  intro s
  split
  · exact peek_coupled
  · exact bind (fault_coupled separate) fun _ => peek_coupled

end Coupling

section Isolation

variable {w₀ w₁ w₂ w₃ : World} {a b : Nat}

variable {flags : ProtFlags × MapFlags}

theorem flagsAt_page (wf : WellFormed map)
    (h : flagsAt map vaddr = some flags) :
    flagsAt map (vaddr / pageSize * pageSize) = some flags := by
  obtain ⟨e, found, hflags⟩ := map_eq_some_iff.mp h
  obtain ⟨he, around⟩ := wf.ordered.find_eq_some.mp found
  have hstart := (wf.aligned e he).1
  have found' : entryAt map (vaddr / pageSize * pageSize) = some e := by
    apply wf.ordered.find_eq_some.mpr
    refine ⟨he, ?_⟩
    simp only [Intervals.Around, pageSize] at *
    omega
  rw [flagsAt, found', map_some, hflags]

/-- Faults and stores keep two spaces apart. -/
theorem access_apart (separate : Separate env) (hab : a ≠ b) {call : Access}
    (h : Base w ∧ Accounted env w ∧ Apart a b w) :
    wlp (accessExec env call) (fun _ w => Base w ∧ Accounted env w ∧ Apart a b w)
      (fun w => Base w ∧ Accounted env w ∧ Apart a b w) w := by
  cases call with
  | fault k vaddr access size =>
    refine FaultKept.fault ⟨?_⟩ h
    rintro access j vaddr w w' s entry ⟨base, accounted, apart⟩ hs hentry step
    obtain ⟨s', effect⟩ := step.effect base hs hentry
    exact ⟨base.faultStep hs hentry step, effect.accounted accounted,
      apart.fault separate hab accounted effect⟩
  | store k vaddr byte =>
    apply store_keeps
    · exact fun p o byte => ⟨h.1.poke p o byte, h.2.1.poke p o byte, h.2.2.poke p o byte⟩
    · exact h

/-- A store to private memory is no difference that the other space can see. -/
theorem twins_of_store (base : Base w) (accounted : Accounted env w)
    (apart : Apart a b w) (hs : w.spaces[a]? = some s) (hflags : flagsAt s.map vaddr = some flags)
    (hshared : ¬ Has flags.2 SHARED)
    (stored : store a vaddr byte w = some (.ok (), w₁)) :
    Twins env b (vaddr / pageSize) w w₁ := by
  obtain ⟨failed, _⟩ | ⟨s', pte, hs', hpte, write, rfl⟩ := store_eq stored
  · exact absurd rfl failed
  obtain rfl : s = s' := some.inj (hs.symm.trans hs')
  have hflags := flagsAt_page (base.ok.wellFormed (maps_get hs)) hflags
  obtain ⟨slot, free⟩ := apart.writes hs hpte write hflags hshared
  refine ⟨base, accounted, (· = pte.paddr), rfl, ?_, ?_, ?_, ?_⟩
  · intro p hp
    exact update_of_ne hp _ _
  · rintro p rfl
    exact accounted.held_in hs (held_of_slotAt slot)
  · rintro sb hb p rfl
    exact free sb hb
  · intro sb hb pte' hpte' heq
    rw [← heq] at slot
    have held := held_of_slotAt (apart.maps hs hb hpte' slot)
    exact free sb hb (heq ▸ held)

theorem Accounted.of_fresh (fresh : w.Fresh) : Accounted env w ∧ Granted w := by
  have entries : ∀ e, e ∉ w.entries := by
    intro e he
    rw [entries_eq, fresh.leaked, append_nil, mem_flatten] at he
    obtain ⟨m, hm, he⟩ := he
    obtain ⟨s, hs, rfl⟩ := mem_map.mp hm
    rw [(fresh.spaces s hs).1] at he
    cases he
  have leaves : ∀ s ∈ w.spaces, ∀ n pte, s.pmap n ≠ some pte := by
    intro s hs n pte hpte
    rw [(fresh.spaces s hs).2] at hpte
    cases hpte
  refine ⟨⟨fun e he => absurd he (entries e), ?_⟩, ?_⟩
  all_goals exact fun s hs n pte hpte => absurd hpte (leaves s hs n pte)

/-- A space is used, and then forked. If its writable memory is shared or marked
private, a store of one side to memory that is not shared changes nothing that the
other side reads at the address, whatever both do before and after. -/
theorem fork_isolates {s sa : Space} {byte : BitVec 8} (separate : Separate env)
    (fresh : w₀.Fresh)
    (used : Runs (useExec env) (fun _ use => use.Legal) w₀ w) (hs : w.spaces[i]? = some s)
    (cow : ∀ e ∈ s.map, Has e.inner.protFlags Prot.WRITE → ¬ Has e.inner.mapFlags SHARED →
      Has e.inner.mapFlags PRIVATE) (forked : fork env i w = some (.ok (), w₁))
    (later : Runs (accessExec env) (fun _ _ => True) w₁ w₂)
    (sides : (a, b) = (i, w.spaces.length) ∨ (a, b) = (w.spaces.length, i)) (ha : w₂.spaces[a]?
    = some sa) (hflags : flagsAt sa.map vaddr = some flags) (hshared : ¬ Has flags.2 SHARED)
    (stored : store a vaddr byte w₂ = some (.ok (), w₃)) (calls : List Access) :
    loadAfter env calls b vaddr w₃ = loadAfter env calls b vaddr w₂ := by
  have hi := (List.getElem?_eq_some_iff.mp hs).1
  have hab : a ≠ b := by
    obtain h | h := sides <;> cases h <;> omega
  obtain ⟨base, accounted, granted⟩ : Base w ∧ Accounted env w ∧ Granted w :=
    used.invariant ⟨fresh.base, Accounted.of_fresh fresh⟩ fun legal h => accounted_use legal h
  have start : Base w₁ ∧ Accounted env w₁ ∧ Apart a b w₁ := by
    refine ⟨base.fork _ _ forked, accounted.fork _ _ forked, ?_⟩
    have apart := fork_apart base granted hs cow _ _ forked
    obtain h | h := sides <;> cases h
    · exact apart.1
    · exact apart.2
  obtain ⟨base₂, accounted₂, apart₂⟩ : Base w₂ ∧ Accounted env w₂ ∧
      Apart a b w₂ :=
    later.invariant start
      fun _ h => access_apart separate hab h
  have twins := twins_of_store base₂ accounted₂ apart₂ ha hflags hshared stored
  obtain ⟨panic, panic'⟩ | ⟨w₄, w₄', run, run', twins'⟩ :=
    runAll (fun _ _ => trivial) (access_coupled separate) twins
  · rw [loadAfter, loadAfter, panic, panic']
  · rw [loadAfter, loadAfter, run, run', bind_some, bind_some]
    obtain ⟨panic, panic'⟩ | ⟨r, _, _, result, result', _⟩ := load_coupled separate twins'
    · rw [panic, panic']
    · rw [result, result']
      rfl

end Isolation

/-- A page of anonymous memory is mapped and written to. The space is forked, and
after some accesses the parent writes again. -/
def twoStores (mapFlags : MapFlags) (calls : List Access) :
    Option (World × World × World × World) := do
  let w ← runAll (useExec calmEnv) (fun _ use => use.Legal)
    [.map 0 4096 65536 0 0 (mapFlags ||| FIXED) (Prot.READ ||| Prot.WRITE) none,
      .access (.fault 0 65536 Prot.WRITE 1), .access (.store 0 65536 7)] emptyWorld
  let (.ok (), w₁) ← fork calmEnv 0 w | none
  let w₂ ← runAll (accessExec calmEnv) (fun _ _ => True) calls w₁
  let (.ok (), w₃) ← store 0 65536 9 w₂ | none
  return (w, w₁, w₂, w₃)

theorem twoStores_eq {mapFlags : MapFlags} {calls : List Access} {w₁ w₂ w₃ : World}
    (h : twoStores mapFlags calls = some (w, w₁, w₂, w₃)) :
    Runs (useExec calmEnv) (fun _ use => use.Legal) emptyWorld w ∧
      fork calmEnv 0 w = some (.ok (), w₁) ∧
      Runs (accessExec calmEnv) (fun _ _ => True) w₁ w₂ ∧
        store 0 65536 9 w₂ = some (.ok (), w₃) := by
  unfold twoStores at h
  simp only [bind_eq_bind, bind_eq_some_iff] at h
  obtain ⟨w', run, ⟨_ | _, w₁'⟩, forked, h⟩ := h
  · cases h
  simp only [bind_eq_some_iff] at h
  obtain ⟨w₂', later, ⟨_ | _, w₃'⟩, stored, h⟩ := h
  · cases h
  cases h
  exact ⟨.of_runAll .init run, forked, .of_runAll .init later, stored⟩

theorem separate_calmEnv : Separate calmEnv := by
  constructor
  · intro t t' p ht hp _ hp'
    simp only [calmEnv, pageSize, some.injEq] at hp hp'
    omega
  · intro t p hp _ borrowed
    simp only [calmEnv, pageSize, some.injEq] at hp
    obtain rfl | ⟨_, _, _, _, _, _, h | h, _⟩ := borrowed
    · simp only [calmEnv, pageSize] at hp
      omega
    · cases h
    · cases h

theorem fork_isolates_private : ∃ w₂ w₃, store 0 65536 9 w₂ = some (.ok (), w₃) ∧
    loadAfter calmEnv [] 1 65536 w₃ = loadAfter calmEnv [] 1 65536 w₂ ∧
    (loadAfter calmEnv [] 1 65536 w₂).map Except.toOption = some (some 7) := by
  have facts : (twoStores PRIVATE [.fault 0 65536 Prot.WRITE 1]).map (fun (w, _, w₂, _) =>
      (w.spaces.map fun s => s.map.map MapEntry.flags, (w₂.spaces[0]?).bind fun s =>
        flagsAt s.map 65536, (loadAfter calmEnv [] 1 65536 w₂).map Except.toOption)) =
      some ([[(Prot.READ ||| Prot.WRITE, PRIVATE ||| FIXED)]],
        some (Prot.READ ||| Prot.WRITE, PRIVATE ||| FIXED), some (some 7)) := by decide +kernel
  obtain ⟨⟨w, w₁, w₂, w₃⟩, run, facts⟩ := map_eq_some_iff.mp facts
  obtain ⟨used, forked, later, stored⟩ := twoStores_eq run
  simp only [Prod.mk.injEq] at facts
  obtain ⟨entries, flags, value⟩ := facts
  obtain ⟨sa, ha, hflags⟩ := bind_eq_some_iff.mp flags
  obtain ⟨s, spaces, entries⟩ := map_eq_singleton_iff.mp entries
  have cow : ∀ e ∈ s.map, Has e.inner.protFlags Prot.WRITE →
    ¬ Has e.inner.mapFlags SHARED →
      Has e.inner.mapFlags PRIVATE := by
    intro e he _ _
    have hmem := mem_map_of_mem (f := MapEntry.flags) he
    rw [entries, mem_singleton] at hmem
    rw [(Prod.mk.inj hmem).2]
    decide
  exact ⟨w₂, w₃, stored, fork_isolates separate_calmEnv ⟨by simp [emptyWorld], rfl⟩ used
    (by rw [spaces]; rfl)
    cow forked later (.inl (by rw [spaces]; rfl)) ha hflags (by decide) stored [], value⟩

/-- Memory that is neither shared nor private is not copied. -/
theorem not_fork_isolates : ∃ w w₁ w₂ w₃ s flags,
    Runs (useExec calmEnv) (fun _ use => use.Legal) emptyWorld w ∧
      fork calmEnv 0 w = some (.ok (), w₁) ∧
    Runs (accessExec calmEnv) (fun _ _ => True) w₁ w₂ ∧ w₂.spaces[0]? = some s ∧
    flagsAt s.map 65536 = some flags ∧ ¬ Has flags.2 SHARED ∧
      store 0 65536 9 w₂ = some (.ok (), w₃) ∧
    (loadAfter calmEnv [] 1 65536 w₂).map Except.toOption = some (some 7) ∧
    (loadAfter calmEnv [] 1 65536 w₃).map Except.toOption = some (some 9) := by
  have facts : (twoStores 0 []).map (fun (_, _, w₂, w₃) =>
      ((w₂.spaces[0]?).bind fun s => flagsAt s.map 65536, (loadAfter calmEnv [] 1 65536 w₂).map
        Except.toOption, (loadAfter calmEnv [] 1 65536 w₃).map Except.toOption)) =
      some (some (Prot.READ ||| Prot.WRITE, FIXED), some (some 7), some (some 9)) := by
        decide +kernel
  obtain ⟨⟨w, w₁, w₂, w₃⟩, run, facts⟩ := map_eq_some_iff.mp facts
  obtain ⟨used, forked, later, stored⟩ := twoStores_eq run
  simp only [Prod.mk.injEq] at facts
  obtain ⟨flags, before, after⟩ := facts
  obtain ⟨s, hs, hflags⟩ := bind_eq_some_iff.mp flags
  exact ⟨w, w₁, w₂, w₃, s, _, used, forked, later, hs,
    hflags, by decide, stored, before, after⟩

end BadgerOS.Vmm
