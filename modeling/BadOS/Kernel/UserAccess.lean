import BadOS.Foundation.Execution
import BadOS.Kernel.BootFrames

/-! # What the user can access

An access from user mode needs the user bit in every entry of the walk, and a store the
writable bit as well. On the way the processor sets accessed and dirty bits. As long as
nothing that is open to the user is a table or a page of the heap, the tables stay the same
but for these bits, and the heap stays as it is.
-/

namespace BadOS.Kernel

open RadixTree Execution

/-- The entry lets an access from user mode pass. -/
def userAllows (write : Bool) (e : ℕ) : Bool :=
  isPresent e && e.testBit 2 && (!write || e.testBit 1)

/-- The processor's walk for an access from user mode. -/
def userWalk (write : Bool) (mem : Memory) (cr3 virt : ℕ) : Option Leaf :=
  let e4 := entry mem (cr3 &&& addrMask) (index virt 39)
  if !userAllows write e4 then none
  else
    let e3 := entry mem (e4 &&& addrMask) (index virt 30)
    if !userAllows write e3 then none
    else if isLarge e3 then some ⟨e3, 30⟩
    else
      let e2 := entry mem (e3 &&& addrMask) (index virt 21)
      if !userAllows write e2 then none
      else if isLarge e2 then some ⟨e2, 21⟩
      else
        let e1 := entry mem (e2 &&& addrMask) (index virt 12)
        if !userAllows write e1 then none else some ⟨e1, 12⟩

/-! ## Entries -/

theorem userAllows_of_mod {e : ℕ} (he : e % 8 = 7) (write : Bool) : userAllows write e = true := by
  have hone : e.testBit 1 = true := by
    rw [Nat.testBit_eq_decide_div_mod_eq, decide_eq_true (by omega)]
  have htwo : e.testBit 2 = true := by
    rw [Nat.testBit_eq_decide_div_mod_eq, decide_eq_true (by omega)]
  rw [userAllows, isPresent_eq, decide_eq_true (by omega), htwo, hone, Bool.or_true]
  rfl

theorem userAllows_of_absent {e : ℕ} (he : isPresent e = false) (write : Bool) :
    userAllows write e = false := by
  rw [userAllows, he]
  rfl

theorem isPresent_of_userAllows {e : ℕ} {write : Bool} (he : userAllows write e = true) :
    isPresent e = true := by
  by_contra hnot
  rw [userAllows_of_absent (Bool.not_eq_true _ ▸ hnot)] at he
  cases he

theorem leafEntry_testBit (phys flags : ℕ) {i : ℕ} (hi : 0 < i) (hlt : i < 12) :
    (Machine.leafEntry phys flags).testBit i = flags.testBit i := by
  have haddr : addrMask.testBit i = false := by
    have hmask : addrMask = 2 ^ 12 * (2 ^ 40 - 1) := by decide
    rw [hmask, Nat.testBit_two_pow_mul, decide_eq_false (by omega), Bool.false_and]
  have hflags : (0xFFF : ℕ).testBit i = true := by
    rw [show (0xFFF : ℕ) = 2 ^ 12 - 1 by decide, Nat.testBit_two_pow_sub_one, decide_eq_true hlt]
  have hone : (0x1 : ℕ).testBit i = false := by
    rw [show (0x1 : ℕ) = 2 ^ 1 - 1 by decide, Nat.testBit_two_pow_sub_one,
      decide_eq_false (by omega)]
  rw [Machine.leafEntry, Nat.testBit_or, Nat.testBit_or, Nat.testBit_and, Nat.testBit_and, haddr,
    hflags, hone]
  simp

/-- A page mapped with flags 7 is open to the user, one mapped with 3 is not. -/
theorem userAllows_leafEntry (phys : ℕ) (write : Bool) :
    userAllows write (Machine.leafEntry phys 0x7) = true ∧
      userAllows write (Machine.leafEntry phys 3) = false := by
  unfold userAllows
  simp only [isPresent_leafEntry, leafEntry_testBit phys _ (show 0 < 1 by decide) (by decide),
    leafEntry_testBit phys _ (show 0 < 2 by decide) (by decide)]
  cases write <;> decide

/-! ## Accessed and dirty bits -/

/-- The bit the processor sets in the entries it uses. -/
def accessed : ℕ := 0x20

/-- The bit the processor sets in the last entry of a walk for a store. -/
def dirty : ℕ := 0x40

/-- The entries are the same but for their accessed and dirty bits. -/
def SameButMarks (e e' : ℕ) : Prop := e ||| (accessed ||| dirty) = e' ||| (accessed ||| dirty)

section Marks

variable {e e' e'' i : ℕ}

theorem SameButMarks.refl (e : ℕ) : SameButMarks e e := rfl

theorem SameButMarks.trans (h : SameButMarks e e') (h' : SameButMarks e' e'') :
    SameButMarks e e'' := Eq.trans h h'

theorem sameButMarks_accessed (e : ℕ) : SameButMarks e (e ||| accessed) := by
  unfold SameButMarks
  rw [Nat.lor_assoc]
  rfl

theorem sameButMarks_dirty (e : ℕ) : SameButMarks e (e ||| dirty) := by
  unfold SameButMarks
  rw [Nat.lor_assoc]
  rfl

theorem marks_testBit (hi : i ≠ 5 ∧ i ≠ 6) : (accessed ||| dirty).testBit i = false := by
  have hmarks : accessed ||| dirty = 2 ^ 5 * (2 ^ 2 - 1) := by decide
  rw [hmarks, Nat.testBit_two_pow_mul, Nat.testBit_two_pow_sub_one]
  by_cases hge : 5 ≤ i
  · rw [decide_eq_false (by omega : ¬ i - 5 < 2), Bool.and_false]
  · rw [decide_eq_false hge, Bool.false_and]

/-- The other bits are the same. -/
theorem SameButMarks.testBit_eq (h : SameButMarks e e') (hi : i ≠ 5 ∧ i ≠ 6) :
    e'.testBit i = e.testBit i := by
  have hbit := congrArg (Nat.testBit · i) h
  simp only [Nat.testBit_or, marks_testBit hi, Bool.or_false] at hbit
  exact hbit.symm

theorem SameButMarks.isPresent_eq (h : SameButMarks e e') : isPresent e' = isPresent e :=
  h.testBit_eq (by decide)

theorem SameButMarks.isLarge_eq (h : SameButMarks e e') : isLarge e' = isLarge e :=
  h.testBit_eq (by decide)

theorem SameButMarks.userAllows_eq (h : SameButMarks e e') (write : Bool) :
    userAllows write e' = userAllows write e := by
  unfold userAllows
  rw [h.isPresent_eq, h.testBit_eq (by decide), h.testBit_eq (by decide)]

theorem SameButMarks.and_addrMask_eq (h : SameButMarks e e') :
    e' &&& addrMask = e &&& addrMask := by
  apply Nat.eq_of_testBit_eq
  intro i
  have hmask : addrMask = 2 ^ 12 * (2 ^ 40 - 1) := by decide
  rw [Nat.testBit_and, Nat.testBit_and]
  by_cases hi : i ≠ 5 ∧ i ≠ 6
  · rw [h.testBit_eq hi]
  · have hlow : addrMask.testBit i = false := by
      rw [hmask, Nat.testBit_two_pow_mul, decide_eq_false (by omega), Bool.false_and]
    rw [hlow, Bool.and_false, Bool.and_false]

theorem SameButMarks.frameOf_eq (h : SameButMarks e e') : frameOf e' = frameOf e := by
  have hand := h.and_addrMask_eq
  rw [and_addrMask, and_addrMask] at hand
  omega

theorem SameButMarks.childFrame_eq (h : SameButMarks e e') : childFrame e' = childFrame e := by
  rw [childFrame, childFrame, h.isPresent_eq, h.frameOf_eq]

end Marks

/-! ## Walks -/

/-- A walk from user mode is a walk, and ends at an entry that is open. -/
theorem userWalk_walk {write : Bool} {mem : Memory} {cr3 virt : ℕ} {leaf : Leaf}
    (h : userWalk write mem cr3 virt = some leaf) :
    walk mem cr3 virt = some leaf ∧ userAllows write leaf.entry = true := by
  unfold userWalk at h
  unfold walk
  dsimp only at h ⊢
  generalize entry mem (cr3 &&& addrMask) (index virt 39) = e4 at h ⊢
  cases h4 : userAllows write e4 <;> simp only [h4] at h
  case false => simp at h
  generalize entry mem (e4 &&& addrMask) (index virt 30) = e3 at h ⊢
  rw [isPresent_of_userAllows h4]
  cases h3 : userAllows write e3 <;> simp only [h3] at h
  case false => simp at h
  rw [isPresent_of_userAllows h3]
  by_cases hl3 : isLarge e3 = true
  · simp only [hl3] at h ⊢
    obtain rfl := Option.some_injective _ h
    exact ⟨rfl, h3⟩
  · simp only [hl3] at h ⊢
    generalize entry mem (e3 &&& addrMask) (index virt 21) = e2 at h ⊢
    cases h2 : userAllows write e2 <;> simp only [h2] at h
    case false => simp at h
    rw [isPresent_of_userAllows h2]
    by_cases hl2 : isLarge e2 = true
    · simp only [hl2] at h ⊢
      obtain rfl := Option.some_injective _ h
      exact ⟨rfl, h2⟩
    · simp only [hl2] at h ⊢
      generalize entry mem (e2 &&& addrMask) (index virt 12) = e1 at h ⊢
      cases h1 : userAllows write e1 <;> simp only [h1] at h
      case false => simp at h
      rw [isPresent_of_userAllows h1]
      obtain rfl := Option.some_injective _ h
      exact ⟨rfl, h1⟩

/-- The entries that the walk for `virt` uses from a table on, each with its table. -/
def walkEntries (mem : Memory) (virt table : ℕ) : List ℕ → List (ℕ × ℕ)
  | [] => []
  | shift :: rest =>
      let e := entry mem table (index virt shift)
      (table, index virt shift) ::
        if isPresent e && !isLarge e then walkEntries mem virt (e &&& addrMask) rest else []

namespace Machine

/-- The physical address behind an address in user mode; `none` when the access faults. -/
def userTranslate (m : Machine) (write : Bool) (virt : ℕ) : Option ℕ :=
  if Canonical virt then
    (userWalk write m.mem m.cr3 virt).map fun leaf =>
      (leaf.entry &&& addrMask) / 2 ^ leaf.pageBits * 2 ^ leaf.pageBits + virt % 2 ^ leaf.pageBits
  else none

/-- Every entry that links a table below `slots` is open to the user. -/
def UserLinks (m : Machine) (slots : Set (Fin 512)) : Prop :=
  ∀ q i, q ++ [i] ∈ paths slots → ∀ f, m.node q = some f →
    isPresent (tables m.mem f i) = true → tables m.mem f i % 8 = 7

variable {m m' : Machine} {slots : Set (Fin 512)} {p q : List (Fin 512)} {i : Fin 512}
variable {f virt phys flags : ℕ} {write : Bool} {role : FrameRole}

theorem root_node (m : Machine) : m.node [] = some m.root := rfl

theorem nil_mem_paths : [] ∈ paths slots := by simp [paths]

/-- Below open links it is the last entry that decides. -/
theorem userWalk_eq_lookup (htree : m.TreeOn slots) (hlinks : m.UserLinks slots)
    (hslot : slot virt 39 ∈ slots) :
    userWalk write m.mem m.cr3 virt =
      ((m.lookup (pathTo virt) (slot virt 12)).filter (userAllows write)).map
        fun e => ⟨e, 12⟩ := by
  obtain ⟨hpath₁, hpath₂, hpath₃⟩ := mem_paths_of_slot hslot
  have hlarge₁ := htree.noLarge _ hpath₁ (by simp) (by simp)
  have hlarge₂ := htree.noLarge _ hpath₂ (by simp) (by simp)
  have hlink₁ := hlinks [] (slot virt 39) hpath₁
  have hlink₂ := hlinks [slot virt 39] (slot virt 30) hpath₂
  have hlink₃ := hlinks [slot virt 39, slot virt 30] (slot virt 21) hpath₃
  unfold node root at hlarge₁ hlarge₂ hlink₁ hlink₂ hlink₃
  unfold userWalk lookup RadixTree.lookup pathTo root
  simp only [and_addrMask]
  simp only [RadixTree.node] at hlarge₁ hlarge₂ hlink₁ hlink₂ hlink₃ ⊢
  have hindex : ∀ f shift, entry m.mem (4096 * f) (index virt shift) =
      tables m.mem f (slot virt shift) := fun _ _ => rfl
  simp only [hindex]
  replace hlink₁ := hlink₁ _ rfl
  generalize tables m.mem (frameOf m.cr3) (slot virt 39) = e4
    at hlarge₁ hlarge₂ hlink₁ hlink₂ hlink₃ ⊢
  cases h4 : isPresent e4 with
  | false => simp [childFrame, h4, userAllows_of_absent h4]
  | true =>
      simp only [childFrame, h4, if_true, Option.bind_some] at hlarge₁ hlarge₂ hlink₂ hlink₃ ⊢
      rw [userAllows_of_mod (hlink₁ h4)]
      have hsmall₁ := hlarge₁ _ rfl (slot virt 30)
      replace hlink₂ := hlink₂ _ rfl
      generalize tables m.mem (frameOf e4) (slot virt 30) = e3 at hsmall₁ hlarge₂ hlink₂ hlink₃ ⊢
      cases h3 : isPresent e3 with
      | false => simp [userAllows_of_absent h3]
      | true =>
          simp only [h3, if_true, Option.bind_some] at hlarge₂ hlink₃ ⊢
          rw [userAllows_of_mod (hlink₂ h3)]
          have hsmall₂ := hlarge₂ _ rfl (slot virt 21)
          replace hlink₃ := hlink₃ _ rfl
          rw [hsmall₁ h3]
          generalize tables m.mem (frameOf e3) (slot virt 21) = e2 at hsmall₂ hlink₃ ⊢
          cases h2 : isPresent e2 with
          | false => simp [userAllows_of_absent h2]
          | true =>
              rw [userAllows_of_mod (hlink₃ h2)]
              simp only [hsmall₂ h2, if_true, Option.bind_some]
              generalize tables m.mem (frameOf e2) (slot virt 12) = e1
              by_cases h1 : isPresent e1 = true
              · cases hallow : userAllows write e1 <;> simp [h1, hallow]
              · rw [Bool.not_eq_true] at h1
                simp [h1, userAllows_of_absent h1]

/-! ## Tables with marks -/

/-- The tables below `slots` are the same but for accessed and dirty bits. -/
structure MarkedTables (slots : Set (Fin 512)) (m m' : Machine) : Prop where
  cr3_eq : m'.cr3 = m.cr3
  entries : ∀ q ∈ paths slots, ∀ f, m.node q = some f →
    ∀ i, SameButMarks (tables m.mem f i) (tables m'.mem f i)

theorem MarkedTables.refl (slots : Set (Fin 512)) (m : Machine) : MarkedTables slots m m :=
  ⟨rfl, fun _ _ _ _ _ => .refl _⟩

theorem MarkedTables.node_eq (hmarked : MarkedTables slots m m') (hq : q ∈ paths slots) :
    m'.node q = m.node q := by
  have hroot : m'.root = m.root := by rw [root, hmarked.cr3_eq, root]
  have hclosed := paths_prefixClosed slots
  unfold node
  rw [hroot]
  apply node_congr hclosed hq
  intro r j hr _ f hf
  exact (hmarked.entries r (hclosed r j hr) f hf j).childFrame_eq

theorem MarkedTables.trans {m'' : Machine} (hfirst : MarkedTables slots m m')
    (hsecond : MarkedTables slots m' m'') : MarkedTables slots m m'' := by
  refine ⟨hsecond.cr3_eq.trans hfirst.cr3_eq, fun q hq f hf i => ?_⟩
  exact (hfirst.entries q hq f hf i).trans
    (hsecond.entries q hq f ((hfirst.node_eq hq).trans hf) i)

theorem SameTables.marked (hsame : SameTables slots m m') : MarkedTables slots m m' :=
  ⟨hsame.cr3_eq, fun q hq f hf i => by rw [hsame.tables_eq hq hf]; exact .refl _⟩

/-- The walk for an address goes on to the table that a present entry links. -/
theorem node_next (m : Machine) (hnode : m.node q = some f) (virt shift : ℕ)
    (hpresent : isPresent (entry m.mem (4096 * f) (index virt shift)) = true) :
    m.node (q ++ [slot virt shift]) =
      some (frameOf (entry m.mem (4096 * f) (index virt shift))) := by
  have hentry : tables m.mem f (slot virt shift) =
      entry m.mem (4096 * f) (index virt shift) := rfl
  unfold node at hnode ⊢
  rw [node_concat, hnode, Option.bind_some, childFrame, hentry, if_pos hpresent]

/-- The user's translation of an address below `slots` does not depend on the marks. -/
theorem MarkedTables.userTranslate_eq (hmarked : MarkedTables slots m m')
    (hslot : slot virt 39 ∈ slots) (write : Bool) :
    m'.userTranslate write virt = m.userTranslate write virt := by
  obtain ⟨hpath₁, hpath₂, hpath₃⟩ := mem_paths_of_slot hslot
  have hsame : ∀ q ∈ paths slots, ∀ f, m.node q = some f → ∀ shift,
      SameButMarks (entry m.mem (4096 * f) (index virt shift))
        (entry m'.mem (4096 * f) (index virt shift)) :=
    fun q hq f hf shift => hmarked.entries q hq f hf (slot virt shift)
  unfold userTranslate userWalk
  simp only [hmarked.cr3_eq, and_addrMask]
  by_cases hcanonical : Canonical virt
  case neg => rw [if_neg hcanonical, if_neg hcanonical]
  rw [if_pos hcanonical, if_pos hcanonical]
  -- Each level has the same entry but for marks, so the walks go to the same next table.
  have h4 := hsame [] nil_mem_paths (frameOf m.cr3) m.root_node 39
  have hnode₁ := m.node_next (q := []) (f := frameOf m.cr3) rfl virt 39
  rw [h4.userAllows_eq, h4.frameOf_eq]
  generalize entry m.mem (4096 * frameOf m.cr3) (index virt 39) = e4 at hnode₁ ⊢
  cases hallow₄ : userAllows write e4
  case false => simp
  have h3 := hsame _ hpath₁ _ (hnode₁ (isPresent_of_userAllows hallow₄)) 30
  have hnode₂ := m.node_next (hnode₁ (isPresent_of_userAllows hallow₄)) virt 30
  rw [h3.userAllows_eq, h3.isLarge_eq, h3.frameOf_eq]
  generalize entry m.mem (4096 * frameOf e4) (index virt 30) = e3 at h3 hnode₂ ⊢
  cases hallow₃ : userAllows write e3
  case false => simp
  by_cases hlarge₃ : isLarge e3 = true
  · simp [hlarge₃, h3.frameOf_eq]
  have h2 := hsame _ hpath₂ _ (hnode₂ (isPresent_of_userAllows hallow₃)) 21
  have hnode₃ := m.node_next (hnode₂ (isPresent_of_userAllows hallow₃)) virt 21
  rw [h2.userAllows_eq, h2.isLarge_eq, h2.frameOf_eq]
  generalize entry m.mem (4096 * frameOf e3) (index virt 21) = e2 at h2 hnode₃ ⊢
  cases hallow₂ : userAllows write e2
  case false => simp [hlarge₃]
  by_cases hlarge₂ : isLarge e2 = true
  · simp [hlarge₃, hlarge₂, h2.frameOf_eq]
  have h1 := hsame _ hpath₃ _ (hnode₃ (isPresent_of_userAllows hallow₂)) 12
  rw [h1.userAllows_eq]
  cases hallow₁ : userAllows write (entry m.mem (4096 * frameOf e2) (index virt 12))
  case false => simp [hlarge₃, hlarge₂]
  simp [hlarge₃, hlarge₂, h1.frameOf_eq]

/-- Neither does that of an address in another slot whose entry is closed. -/
theorem MarkedTables.userTranslate_closed (hmarked : MarkedTables slots m m')
    (hclosed : userAllows write (tables m.mem m.root (slot virt 39)) = false) :
    m'.userTranslate write virt = none := by
  have hroot := hmarked.entries [] nil_mem_paths m.root m.root_node (slot virt 39)
  have hentry := hroot.userAllows_eq write
  rw [hclosed] at hentry
  have haddr : m'.cr3 &&& addrMask = 4096 * m.root := by
    rw [hmarked.cr3_eq, and_addrMask, root]
  have hsame : entry m'.mem (4096 * m.root) (index virt 39) =
      tables m'.mem m.root (slot virt 39) := rfl
  unfold userTranslate userWalk
  dsimp only
  rw [haddr, hsame, hentry]
  simp

/-! ## Accesses -/

/-- What the process does in user mode: the processor marks an entry on the way to an
address, and a byte is stored. A load is the marks alone. -/
inductive UserAction
  | mark (virt table i marks : ℕ)
  | store (virt : ℕ) (b : UInt8)

/-- An access that does not fault marks the entries of its walk, and stores its byte. -/
inductive UserStep (m : Machine) : UserAction → Machine → Prop
  | mark {virt table i marks : ℕ} (hopen : (m.userTranslate false virt).isSome)
      (hentry : (table, i) ∈ walkEntries m.mem virt (m.cr3 &&& addrMask) [39, 30, 21, 12])
      (hmarks : marks = accessed ∨ marks = dirty) :
      UserStep m (.mark virt table i marks)
        (m.setMem (BadOS.Kernel.setEntry m.mem table i (entry m.mem table i ||| marks)))
  | store {virt phys : ℕ} {b : UInt8} (hopen : m.userTranslate true virt = some phys) :
      UserStep m (.store virt b) (m.setMem (Function.update m.mem phys b))

/-- The entries of a walk are in tables. -/
theorem exists_node_of_walkEntries {table i : ℕ} {shifts : List ℕ} (hnode : m.node q = some f)
    (hq : q ∈ paths slots)
    (hpaths : ∀ n, n + 1 < shifts.length →
      q ++ (shifts.take (n + 1)).map (slot virt) ∈ paths slots)
    (hentry : (table, i) ∈ walkEntries m.mem virt (4096 * f) shifts) :
    ∃ r ∈ paths slots, ∃ g, m.node r = some g ∧ table = 4096 * g ∧ i < 512 := by
  induction shifts generalizing q f with
  | nil => cases hentry
  | cons shift rest ih =>
      rw [walkEntries] at hentry
      rcases List.mem_cons.mp hentry with hhere | hbelow
      · obtain ⟨rfl, rfl⟩ := Prod.mk.inj hhere
        exact ⟨q, hq, f, hnode, rfl, (slot virt shift).isLt⟩
      · split at hbelow
        · next hpresent =>
          have hnext := m.node_next hnode virt shift (Bool.and_eq_true_iff.mp hpresent).1
          rw [and_addrMask] at hbelow
          have hrest : 0 < rest.length := by
            rcases rest with _ | ⟨_, _⟩
            · cases hbelow
            · exact Nat.succ_pos _
          refine ih hnext (hpaths 0 (by simpa using hrest)) (fun n hn => ?_) hbelow
          have hpath := hpaths (n + 1) (by simpa using hn)
          simpa using hpath
        · cases hbelow

theorem walk_paths (hslot : slot virt 39 ∈ slots) (n : ℕ)
    (hn : n + 1 < [39, 30, 21, 12].length) :
    [] ++ (([39, 30, 21, 12] : List ℕ).take (n + 1)).map (slot virt) ∈ paths slots := by
  obtain ⟨hpath₁, hpath₂, hpath₃⟩ := mem_paths_of_slot hslot
  have hcases : n = 0 ∨ n = 1 ∨ n = 2 := by
    simp only [List.length_cons, List.length_nil] at hn
    omega
  rcases hcases with rfl | rfl | rfl
  · exact hpath₁
  · exact hpath₂
  · exact hpath₃

/-- Marking an entry of a table keeps the tables but for the marks, and all else. -/
theorem markedTables_mark {i : Fin 512} {marks : ℕ} (hmarks : marks = accessed ∨ marks = dirty) :
    MarkedTables slots m (m.setMem (BadOS.Kernel.setEntry m.mem (4096 * f) i
      (entry m.mem (4096 * f) i ||| marks))) := by
  have hsmall : marks < 2 ^ 64 := by rcases hmarks with rfl | rfl <;> decide
  have hbound : entry m.mem (4096 * f) i ||| marks < 2 ^ 64 :=
    Nat.or_lt_two_pow (Memory.load_lt _ _ 8) hsmall
  refine ⟨rfl, fun q _ g _ j => ?_⟩
  dsimp only [setMem]
  rw [tables_setEntry m.mem f i hbound, RadixTree.setEntry]
  split
  · next hsame =>
    obtain ⟨rfl, rfl⟩ := hsame
    rcases hmarks with rfl | rfl
    · exact sameButMarks_accessed _
    · exact sameButMarks_dirty _
  · exact .refl _

/-! ## Confinement -/

/-- The byte belongs to a page of the heap. -/
def HeapByte (m : Machine) (x : ℕ) : Prop := (.heap, 4096 * (x / 4096)) ∈ m.granted

/-- What is open to the user is in the lower half and holds neither a table nor a page of
the heap; no page of the heap is a table. -/
structure Confined (m : Machine) : Prop where
  tree : m.TreeOn bootSlots
  links : m.UserLinks bootSlots
  root : ∀ i ∉ bootSlots, userAllows false (tables m.mem m.root i) = false
  lower : ∀ virt < 2 ^ 47, ∀ e, m.lookup (pathTo virt) (slot virt 12) = some e →
    ∃ f < 2 ^ 40, e = leafEntry (4096 * f) 0x7 ∧ (∀ q ∈ paths bootSlots, m.node q ≠ some f) ∧
      (.heap, 4096 * f) ∉ m.granted
  upper : ∀ virt, 2 ^ 47 ≤ virt → Canonical virt → slot virt 39 ∈ bootSlots →
    ∀ e, m.lookup (pathTo virt) (slot virt 12) = some e → ∃ a, e = leafEntry a 3
  heap : ∀ x, m.HeapByte x → ∀ q ∈ paths bootSlots, m.node q ≠ some (x / 4096)

theorem userAllows_of_write {e : ℕ} (he : userAllows write e = true) :
    userAllows false e = true := by
  unfold userAllows at he ⊢
  simp only [Bool.and_eq_true] at he
  rw [he.1.1, he.1.2]
  rfl

theorem Confined.closed (hconfined : m.Confined) (hslot : slot virt 39 ∉ bootSlots)
    (write : Bool) : userAllows write (tables m.mem m.root (slot virt 39)) = false := by
  by_contra hopen
  have hread := userAllows_of_write ((Bool.not_eq_false _).mp hopen)
  rw [hconfined.root _ hslot] at hread
  cases hread

/-- In the lower half the user sees what the kernel sees, and above it nothing. -/
theorem Confined.userTranslate_eq (hconfined : m.Confined) (write : Bool) (virt : ℕ) :
    m.userTranslate write virt = if virt < 2 ^ 47 then m.translate virt else none := by
  split
  · next hvirt =>
    have hslot := slot_lower hvirt
    rw [userTranslate, translate, userWalk_eq_lookup hconfined.tree hconfined.links hslot,
      walk_eq_lookup hconfined.tree hslot]
    cases hlookup : m.lookup (pathTo virt) (slot virt 12) with
    | none => rfl
    | some e =>
        obtain ⟨f, -, rfl, -⟩ := hconfined.lower virt hvirt e hlookup
        rw [Option.filter_some, if_pos (userAllows_leafEntry _ write).1]
  · next hvirt =>
    rw [userTranslate]
    split
    · next hcanonical =>
      cases huser : userWalk write m.mem m.cr3 virt with
      | none => rfl
      | some leaf =>
          obtain ⟨hwalk, hallow⟩ := userWalk_walk huser
          by_cases hslot : slot virt 39 ∈ bootSlots
          · rw [walk_eq_lookup hconfined.tree hslot] at hwalk
            obtain ⟨e, hlookup, rfl⟩ := Option.map_eq_some_iff.mp hwalk
            obtain ⟨a, rfl⟩ := hconfined.upper virt (by omega) hcanonical hslot e hlookup
            rw [(userAllows_leafEntry a write).2] at hallow
            cases hallow
          · have hnone := (MarkedTables.refl bootSlots m).userTranslate_closed
              (hconfined.closed hslot write)
            rw [userTranslate, if_pos hcanonical, huser] at hnone
            cases hnone
    · rfl

/-- An access behind which there is memory is to a page of the lower half. -/
theorem Confined.exists_frame (hconfined : m.Confined)
    (htranslate : m.userTranslate write virt = some phys) :
    virt < 2 ^ 47 ∧ (∀ q ∈ paths bootSlots, m.node q ≠ some (phys / 4096)) ∧ ¬ m.HeapByte phys := by
  rw [hconfined.userTranslate_eq write virt] at htranslate
  split at htranslate
  · next hvirt =>
    have hslot := slot_lower hvirt
    have hcanonical : Canonical virt := Or.inl hvirt
    cases hlookup : m.lookup (pathTo virt) (slot virt 12) with
    | none =>
        rw [translate, if_pos hcanonical, walk_eq_lookup hconfined.tree hslot, hlookup]
          at htranslate
        cases htranslate
    | some e =>
        obtain ⟨f, hf, rfl, htables, hheap⟩ := hconfined.lower virt hvirt e hlookup
        rw [translate_of_lookup hconfined.tree hslot hcanonical hf hlookup] at htranslate
        have hphys := Option.some_injective _ htranslate
        have hframe : phys / 4096 = f := by omega
        exact ⟨hvirt, hframe ▸ htables, by rwa [HeapByte, hframe]⟩
  · cases htranslate

/-- The user's translations do not depend on the marks. -/
theorem Confined.userTranslate_marked (hconfined : m.Confined)
    (hmarked : MarkedTables bootSlots m m') (write : Bool) (virt : ℕ) :
    m'.userTranslate write virt = m.userTranslate write virt := by
  by_cases hslot : slot virt 39 ∈ bootSlots
  · exact hmarked.userTranslate_eq hslot write
  · have hclosed := hconfined.closed hslot write
    rw [hmarked.userTranslate_closed hclosed,
      (MarkedTables.refl bootSlots m).userTranslate_closed hclosed]

/-- The machines have the same tables but for marks, and the same heap. -/
structure Undisturbed (m m' : Machine) : Prop where
  tables : MarkedTables bootSlots m m'
  granted_eq : m'.granted = m.granted
  heap : ∀ x, m.HeapByte x → m'.mem x = m.mem x

/-- An access of the user disturbs neither the tables nor the heap. -/
theorem Confined.userStep {before : Machine} {action : UserAction} (hconfined : m.Confined)
    (hbefore : Undisturbed m before) (hstep : UserStep before action m') : Undisturbed m m' := by
  obtain ⟨htables, hgranted, hheap⟩ := hbefore
  cases hstep with
  | @mark virt table i marks hopen hentry hmarks =>
      rw [hconfined.userTranslate_marked htables] at hopen
      obtain ⟨phys, hphys⟩ := Option.isSome_iff_exists.mp hopen
      obtain ⟨hvirt, -⟩ := hconfined.exists_frame hphys
      have hslot := slot_lower hvirt
      rw [and_addrMask] at hentry
      obtain ⟨q, hq, f, hnode, rfl, hi⟩ :=
        exists_node_of_walkEntries before.root_node nil_mem_paths (walk_paths hslot) hentry
      refine ⟨htables.trans (markedTables_mark (i := ⟨i, hi⟩) hmarks), hgranted, fun x hx => ?_⟩
      rw [← hheap x hx]
      have hne : x / 4096 ≠ f := by
        rintro rfl
        exact hconfined.heap x hx q hq ((htables.node_eq hq).symm.trans hnode)
      exact Memory.store_outside (by omega)
  | @store virt phys b hopen =>
      rw [hconfined.userTranslate_marked htables] at hopen
      obtain ⟨-, hnodes, hbyte⟩ := hconfined.exists_frame hopen
      have hsame : SameTables bootSlots before
          (before.setMem (Function.update before.mem phys b)) := by
        refine ⟨rfl, fun x hx => Function.update_of_ne ?_ _ _⟩
        rintro rfl
        obtain ⟨q, hq, hnode⟩ := hx
        exact hnodes q hq ((htables.node_eq hq).symm.trans hnode)
      refine ⟨htables.trans hsame.marked, hgranted, fun x hx => ?_⟩
      rw [← hheap x hx]
      refine Function.update_of_ne ?_ _ _
      rintro rfl
      exact hbyte hx

/-- Neither does any run of the user. -/
theorem Confined.run {actions : List UserAction} (hconfined : m.Confined)
    (hrun : Run UserStep m actions m') : Undisturbed m m' :=
  hrun.invariant (Undisturbed m) ⟨.refl _ m, rfl, fun _ _ => rfl⟩
    fun _ _ _ hstep hbefore => hconfined.userStep hbefore hstep

end Machine

end BadOS.Kernel
