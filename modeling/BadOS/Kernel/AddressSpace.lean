import BadOS.Kernel.VmmRefinement

/-! # Accesses through the page tables

The kernel writes user memory at virtual addresses. Writes to bytes that are not
part of a table leave all translations alone.
-/

namespace BadOS.Kernel

open RadixTree

/-- Bits 47 to 63 are equal. -/
abbrev Canonical (virt : ℕ) : Prop := virt < 2 ^ 47 ∨ 2 ^ 64 - 2 ^ 47 ≤ virt ∧ virt < 2 ^ 64

namespace Machine

/-- The physical address behind a virtual one; `none` when an access faults. -/
def translate (m : Machine) (virt : ℕ) : Option ℕ :=
  if Canonical virt then
    (walk m.mem m.cr3 virt).map fun leaf =>
      (leaf.entry &&& addrMask) / 2 ^ leaf.pageBits * 2 ^ leaf.pageBits + virt % 2 ^ leaf.pageBits
  else none

def readByte (m : Machine) (virt : ℕ) : Option UInt8 := (m.translate virt).map m.mem

def writeByte (m : Machine) (virt : ℕ) (b : UInt8) : Option Machine :=
  (m.translate virt).map fun phys => m.setMem (Function.update m.mem phys b)

/-- A loop storing `n` bytes from `virt` on, each computed from memory; `none`
when a store faults. -/
def storeBytes (m : Machine) (virt : ℕ) (byte : Memory → ℕ → UInt8) : ℕ → Option Machine
  | 0 => some m
  | n + 1 => (m.storeBytes virt byte n).bind fun m =>
      m.writeByte ((virt + n) % 2 ^ 64) (byte m.mem n)

/-- `memset` at a virtual address. -/
def memset (m : Machine) (virt : ℕ) (value : ℤ) (size : ℕ) : Option Machine :=
  m.storeBytes virt (fun _ _ => UInt8.ofNat (CInt.toU8 value)) size

/-- `memcpy` to a virtual address from the direct map. -/
def memcpy (m : Machine) (virt src size : ℕ) : Option Machine :=
  m.storeBytes virt (fun mem k => mem (src + k)) size

variable {m m' : Machine} {slots : Set (Fin 512)} {virt n a x : ℕ}

/-! ## Changes outside the tables -/

/-- The byte belongs to a table below `slots`. -/
def TableByte (m : Machine) (slots : Set (Fin 512)) (x : ℕ) : Prop :=
  ∃ q ∈ paths slots, m.node q = some (x / 4096)

/-- The tables below `slots` are the same. -/
structure SameTables (slots : Set (Fin 512)) (m m' : Machine) : Prop where
  cr3_eq : m'.cr3 = m.cr3
  bytes : ∀ x, m.TableByte slots x → m'.mem x = m.mem x

theorem SameTables.tables_eq (hsame : SameTables slots m m') {q : List (Fin 512)} {f : ℕ}
    (hq : q ∈ paths slots) (hnode : m.node q = some f) (j : Fin 512) :
    tables m'.mem f j = tables m.mem f j := by
  apply Memory.load_congr
  intro i hi
  have hj := j.isLt
  apply hsame.bytes
  refine ⟨q, hq, ?_⟩
  rw [hnode]
  congr 1
  omega

theorem SameTables.node_eq (hsame : SameTables slots m m') {q : List (Fin 512)}
    (hq : q ∈ paths slots) : m'.node q = m.node q := by
  have hroot : m'.root = m.root := by rw [root, hsame.cr3_eq, root]
  have hclosed := paths_prefixClosed slots
  unfold node
  rw [hroot]
  apply node_congr hclosed hq
  intro r j hr _ f hf
  rw [hsame.tables_eq (hclosed r j hr) hf]

theorem SameTables.lookup_eq (hsame : SameTables slots m m') {q : List (Fin 512)}
    (hq : q ∈ paths slots) (j : Fin 512) : m'.lookup q j = m.lookup q j := by
  have hnode := hsame.node_eq hq
  unfold lookup RadixTree.lookup
  unfold node at hnode
  rw [hnode]
  cases hf : RadixTree.node childFrame (tables m.mem) m.root q with
  | none => rfl
  | some f => simp only [Option.bind_some, hsame.tables_eq hq hf]

theorem SameTables.treeOn (hsame : SameTables slots m m') (htree : m.TreeOn slots) :
    m'.TreeOn slots := by
  constructor
  · intro p hp q hq f hpf hqf
    have hpf' := (hsame.node_eq hp).symm.trans hpf
    have hqf' := (hsame.node_eq hq).symm.trans hqf
    exact htree.tree p hp q hq f hpf' hqf'
  · intro p hp hne hlen f hf j hpresent
    rw [hsame.node_eq hp] at hf
    rw [hsame.tables_eq hp hf] at hpresent ⊢
    exact htree.noLarge p hp hne hlen f hf j hpresent

theorem SameTables.translate_eq (hsame : SameTables slots m m') (htree : m.TreeOn slots)
    (hslot : slot virt 39 ∈ slots) : m'.translate virt = m.translate virt := by
  unfold translate
  rw [walk_eq_lookup (hsame.treeOn htree) hslot, walk_eq_lookup htree hslot,
    hsame.lookup_eq (mem_paths_of_slot hslot).2.2]

/-! ## Mapped pages -/

/-- The page of `virt` is mapped to frame `a`, readable and writable by the user. -/
def MapsTo (m : Machine) (virt a : ℕ) : Prop :=
  m.lookup (pathTo virt) (slot virt 12) = some (leafEntry a 0x7)

theorem leafEntry_and_addrMask {f : ℕ} (hf : f < 2 ^ 40) (flags : ℕ) :
    leafEntry (4096 * f) flags &&& addrMask = 4096 * f := by
  have hflags : (flags &&& 0xFFF) ||| 0x1 < 2 ^ 12 :=
    Nat.or_lt_two_pow (lt_of_le_of_lt Nat.and_le_right (by decide)) (by decide)
  have hframe : frameOf (4096 * f) = f := by
    unfold frameOf
    omega
  have hentry : leafEntry (4096 * f) flags = 4096 * f + ((flags &&& 0xFFF) ||| 0x1) := by
    unfold leafEntry
    rw [and_addrMask, hframe, Nat.or_assoc]
    exact (Nat.two_pow_add_eq_or_of_lt hflags f).symm
  rw [and_addrMask, hentry, frameOf]
  omega

/-- The translation that an entry of the last table gives. -/
theorem translate_of_lookup {f flags : ℕ} (htree : m.TreeOn slots)
    (hslot : slot virt 39 ∈ slots) (hcanonical : Canonical virt) (hf : f < 2 ^ 40)
    (hentry : m.lookup (pathTo virt) (slot virt 12) = some (leafEntry (4096 * f) flags)) :
    m.translate virt = some (4096 * f + virt % 4096) := by
  rw [Machine.translate, if_pos hcanonical, walk_eq_lookup htree hslot, hentry]
  simp only [Option.map_some, leafEntry_and_addrMask hf]
  congr 1
  omega

theorem MapsTo.translate (hmaps : m.MapsTo virt a) (htree : m.TreeOn slots)
    (hslot : slot virt 39 ∈ slots) (hcanonical : Canonical virt) (ha : IsFrame a) :
    m.translate virt = some (a + virt % 4096) := by
  obtain ⟨f, hf, -, rfl⟩ := ha.exists_eq
  exact translate_of_lookup htree hslot hcanonical hf hmaps

/-! ## Storing bytes -/

/-- Storing through an injective translation that avoids the tables. Byte `i` is
computed from a memory that differs from the initial one in stored bytes only. -/
theorem storeBytes_spec (byte : Memory → ℕ → UInt8) {t : ℕ → ℕ}
    (htree : m.TreeOn slots) (hslot : ∀ i < n, slot ((virt + i) % 2 ^ 64) 39 ∈ slots)
    (htranslate : ∀ i < n, m.translate ((virt + i) % 2 ^ 64) = some (t i))
    (hinj : ∀ i < n, ∀ j < n, t i = t j → i = j) (htables : ∀ i < n, ¬ m.TableByte slots (t i)) :
    ∃ mem, m.storeBytes virt byte n = some (m.setMem mem) ∧
      (∀ i < n, ∃ mem', (∀ x, (∀ j < n, x ≠ t j) → mem' x = m.mem x) ∧
        mem (t i) = byte mem' i) ∧
      ∀ x, (∀ i < n, x ≠ t i) → mem x = m.mem x := by
  have hpre : ∀ k ≤ n, ∃ mem, m.storeBytes virt byte k = some (m.setMem mem) ∧
      (∀ i < k, ∃ mem', (∀ x, (∀ j < n, x ≠ t j) → mem' x = m.mem x) ∧
        mem (t i) = byte mem' i) ∧
      ∀ x, (∀ i < k, x ≠ t i) → mem x = m.mem x := by
    intro k
    induction k with
    | zero => exact fun _ => ⟨m.mem, rfl, by simp, fun _ _ => rfl⟩
    | succ k ih =>
        intro hk
        obtain ⟨mem, hstore, hwritten, hkept⟩ := ih (by omega)
        have hsame : SameTables slots m (m.setMem mem) := by
          refine ⟨rfl, fun x hx => hkept x ?_⟩
          rintro i hi rfl
          exact htables i (by omega) hx
        have htarget := (hsame.translate_eq htree (hslot k hk)).trans (htranslate k hk)
        refine ⟨Function.update mem (t k) (byte mem k), ?_, ?_, ?_⟩
        · rw [storeBytes, hstore, Option.bind_some, writeByte, htarget]
          rfl
        · intro i hi
          by_cases hik : i = k
          · rw [hik, Function.update_self]
            exact ⟨mem, fun x hx => hkept x fun j hj => hx j (by omega), rfl⟩
          · have hne : t i ≠ t k := fun heq => hik (hinj i (by omega) k hk heq)
            rw [Function.update_of_ne hne]
            exact hwritten i (by omega)
        · intro x hx
          rw [Function.update_of_ne (hx k (by omega))]
          exact hkept x fun i hi => hx i (by omega)
  exact hpre n (le_refl n)

end Machine

end BadOS.Kernel
