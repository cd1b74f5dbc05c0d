import Muse.Acpi.Proofs.Rsdp
import Muse.Acpi.Sdt

/-!
# Which tables `find_sdt` looks at

`find_sdt` and `reinit_acpi` read a root table as an RSDT. `find_sdt` goes through the words of the
pointer array up to the first one that points to the signature, `reinit_acpi` through all of them.
In an XSDT every second word is the high half of a pointer, so behind a first table with another
signature comes the null pointer.
-/

namespace Muse.Acpi

open Library

variable {mem : ByteMem} {root : BitVec 32} {signature : Fin 4 → BitVec 8}
  {words tables : List (BitVec 32)}

/-- A comparison that any of the characters can spoil. -/
theorem foldl_spoiled {α : Type} {p : α → Prop} [DecidablePred p] (l : List α) (correct : Bool) :
    l.foldl (fun correct j => if p j then false else correct) correct = true ↔
      correct = true ∧ ∀ j ∈ l, ¬ p j := by
  induction l generalizing correct with
  | nil => simp
  | cons j l ih =>
      rw [List.foldl_cons, ih, List.forall_mem_cons]
      by_cases h : p j
      · simp [h]
      · simp [h]

theorem correctSignature_iff (header : BitVec 32) :
    correctSignature mem signature header = true ↔ HasSignature mem signature header := by
  rw [correctSignature, foldl_spoiled]
  simp [HasSignature]

/-- The words up to the first one that points to the signature. -/
def upToFirst (mem : ByteMem) (signature : Fin 4 → BitVec 8) : List (BitVec 32) → List (BitVec 32)
  | [] => []
  | w :: words => if HasSignature mem signature w then [w] else w :: upToFirst mem signature words

theorem mem_of_mem_upToFirst {a : BitVec 32} (h : a ∈ upToFirst mem signature words) :
    a ∈ words := by
  induction words with
  | nil => exact h
  | cons w words ih =>
      rw [upToFirst] at h
      split at h
      · rw [List.mem_singleton.mp h]
        exact List.mem_cons_self
      · rcases List.mem_cons.mp h with rfl | h
        · exact List.mem_cons_self
        · exact List.mem_cons_of_mem w (ih h)

/-- The words of the pointer array from entry `i` on. -/
def WordsFrom (mem : ByteMem) (root : BitVec 32) (i : Nat) (words : List (BitVec 32)) : Prop :=
  ∀ k (hk : k < words.length),
    readWord mem (root + sdtHeaderSize + BitVec.ofNat 32 (4 * (i + k))) = words[k]

theorem WordsFrom.head {w : BitVec 32} {i : Nat} (h : WordsFrom mem root i (w :: words)) :
    sdtPtr mem root (BitVec.ofNat 32 i) = w := by
  have hword := h 0 (Nat.zero_lt_succ _)
  rwa [Nat.add_zero, BitVec.ofNat_mul] at hword

theorem WordsFrom.tail {w : BitVec 32} {i : Nat} (h : WordsFrom mem root i (w :: words)) :
    WordsFrom mem root (i + 1) words := by
  intro k hk
  have hword := h (k + 1) (Nat.succ_lt_succ hk)
  rwa [← Nat.add_assoc, Nat.add_right_comm] at hword

theorem Rsdt.wordsFrom (h : Rsdt mem root words) : WordsFrom mem root 0 words := by
  intro k hk
  rw [Nat.zero_add]
  exact h.ptrs k hk

/-- The loop goes through the words that are left. -/
theorem findSdtLoop_eq (words : List (BitVec 32)) (i : Nat) (derefs : List (BitVec 32))
    (hwords : WordsFrom mem root i words) :
    findSdtLoop mem root signature words.length (BitVec.ofNat 32 i) derefs =
      (firstTable mem signature words, derefs ++ upToFirst mem signature words) := by
  induction words generalizing i derefs with
  | nil =>
      rw [upToFirst, List.append_nil]
      rfl
  | cons w words ih =>
      have hrest := ih (i + 1) (derefs ++ [w]) hwords.tail
      rw [BitVec.ofNat_add] at hrest
      rw [List.length_cons, findSdtLoop, hwords.head, upToFirst, firstTable]
      by_cases h : HasSignature mem signature w
      · rw [if_pos ((correctSignature_iff w).mpr h), if_pos h, List.find?_cons_of_pos (by simp [h])]
        rfl
      · rw [if_neg (fun h' => h ((correctSignature_iff w).mp h')), if_neg h,
          List.find?_cons_of_neg (by simp [h]), hrest, List.append_assoc]
        rfl

/-- The number of entries that the source computes. -/
theorem Rsdt.entries (h : Rsdt mem root words) :
    ((sdtLength mem root - sdtHeaderSize) / 4#32).toNat = words.length := by
  have hlt := (sdtLength mem root).isLt
  have hlength := h.length
  rw [BitVec.toNat_udiv, BitVec.toNat_sub, hlength]
  show (2 ^ 32 - 36 + (36 + 4 * words.length)) % 2 ^ 32 / 4 = _
  omega

/-- `find_sdt` on an RSDT. -/
theorem findSdt_rsdt (h : Rsdt mem root words) : findSdt mem root signature =
    (firstTable mem signature words, upToFirst mem signature words) := by
  rw [findSdt, h.entries, findSdtLoop_eq words 0 [] h.wordsFrom, List.nil_append]

/-- A pointer that is replaced leaves those behind it alone. -/
theorem sdtPtr_writeWord {i k : Nat} (x : BitVec 32) (hik : i < k) (hk : 4 * k < 2 ^ 32) :
    readWord (writeWord mem (root + sdtHeaderSize + 4#32 * BitVec.ofNat 32 i) x)
        (root + sdtHeaderSize + BitVec.ofNat 32 (4 * k)) =
      readWord mem (root + sdtHeaderSize + BitVec.ofNat 32 (4 * k)) := by
  have hi : 4#32 * BitVec.ofNat 32 i = BitVec.ofNat 32 (4 * i) := (BitVec.ofNat_mul 4 i).symm
  have hsub : (BitVec.ofNat 32 (4 * k) - BitVec.ofNat 32 (4 * i)).toNat = 4 * (k - i) := by
    rw [BitVec.toNat_sub, BitVec.toNat_ofNat, BitVec.toNat_ofNat]
    omega
  rw [hi]
  apply readWord_writeWord_field
  · omega
  · omega

theorem reinitAcpiLoop_derefs (mapPhysObj : Nat → BitVec 32 → BitVec 32 → BitVec 32)
    (words : List (BitVec 32)) (i : Nat) (mem : ByteMem) (derefs : List (BitVec 32))
    (hfits : 4 * (i + words.length) < 2 ^ 32) (hwords : WordsFrom mem root i words) :
    (reinitAcpiLoop mapPhysObj root words.length (BitVec.ofNat 32 i) mem derefs).2 =
      derefs ++ words := by
  induction words generalizing i mem derefs with
  | nil => exact (List.append_nil derefs).symm
  | cons w words ih =>
      rw [List.length_cons] at hfits
      have hrest := ih (i + 1) (writeWord mem (root + sdtHeaderSize + 4#32 * BitVec.ofNat 32 i)
        (mapPhysObj (2 * (BitVec.ofNat 32 i).toNat + 2) w (sdtLength mem w))) (derefs ++ [w])
        (by omega) fun k hk => by
          rw [sdtPtr_writeWord _ (by omega) (by omega)]
          exact hwords.tail k hk
      rw [BitVec.ofNat_add, List.append_assoc] at hrest
      rw [List.length_cons, reinitAcpiLoop, hwords.head]
      exact hrest

/-- `reinit_acpi` dereferences every word of the pointer array. -/
theorem reinitAcpi_derefs (mapPhysObj : Nat → BitVec 32 → BitVec 32 → BitVec 32)
    (rsdtLen : BitVec 32) (h : Rsdt mem root words) :
    (reinitAcpi mapPhysObj mem root rsdtLen).2.2 = words := by
  have hlt := (sdtLength mem root).isLt
  have hlength := h.length
  rw [reinitAcpi, h.entries,
    reinitAcpiLoop_derefs mapPhysObj words 0 mem [] (by omega) h.wordsFrom, List.nil_append]

/-- The words of the pointer array of an XSDT. -/
def halves : List (BitVec 32) → List (BitVec 32)
  | [] => []
  | table :: tables => table :: 0#32 :: halves tables

theorem halves_length : (halves tables).length = 2 * tables.length := by
  induction tables with
  | nil => rfl
  | cons table tables ih =>
      rw [halves, List.length_cons, List.length_cons, List.length_cons, ih]
      omega

theorem halves_getElem {k : Nat} (hk : k < (halves tables).length) :
    ∃ hk' : k / 2 < tables.length,
      (halves tables)[k] = if k % 2 = 0 then tables[k / 2] else 0#32 := by
  induction tables generalizing k with
  | nil => exact absurd hk (Nat.not_lt_zero k)
  | cons table tables ih =>
      match k with
      | 0 => exact ⟨Nat.zero_lt_succ _, rfl⟩
      | 1 => exact ⟨Nat.zero_lt_succ _, rfl⟩
      | k + 2 =>
          obtain ⟨hk', hword⟩ := ih (k := k) (Nat.lt_of_succ_lt_succ (Nat.lt_of_succ_lt_succ hk))
          have hdiv : (k + 2) / 2 = k / 2 + 1 := by omega
          have hmod : (k + 2) % 2 = k % 2 := by omega
          refine ⟨by rw [hdiv]; exact Nat.succ_lt_succ hk', ?_⟩
          simp only [hdiv, hmod]
          exact hword

/-- To `find_sdt` an XSDT is an RSDT whose pointers are the halves of its pointers. -/
theorem Xsdt.rsdt (h : Xsdt mem root tables) : Rsdt mem root (halves tables) where
  length := by
    rw [h.length, halves_length]
    omega
  ptrs := by
    intro k hk
    obtain ⟨hk', hword⟩ := halves_getElem hk
    rw [hword]
    by_cases heven : k % 2 = 0
    · have hoffset : 4 * k = 8 * (k / 2) := by omega
      rw [if_pos heven, hoffset]
      exact h.low (k / 2) hk'
    · have hoffset : 4 * k = 8 * (k / 2) + 4 := by omega
      rw [if_neg heven, hoffset]
      exact h.high (k / 2) hk'

/-- The search looks at listed tables only, and finds the first one with the signature. -/
def FindsTable (mem : ByteMem) (root : BitVec 32) (signature : Fin 4 → BitVec 8)
    (tables : List (BitVec 32)) : Prop :=
  (findSdt mem root signature).1 = firstTable mem signature tables ∧
    ∀ a ∈ (findSdt mem root signature).2, a ∈ tables

/-- In the root table that `find_rsdt` chooses `find_sdt` finds the first table with the signature,
    without looking at anything but listed tables, if and only if the root table is an RSDT, or
    is empty, or the first table already has the signature. -/
theorem findSdt_finds_iff (mem : ByteMem) (r : Rsdp) (signature : Fin 4 → BitVec 8)
    (tables : List (BitVec 32)) (hroot : RootTable mem r.revision (findRsdt r) tables)
    (hnull : 0#32 ∉ tables) :
    FindsTable mem (findRsdt r) signature tables ↔
      r.revision = 0#8 ∨ tables = [] ∨
        ∃ table ∈ tables.head?, HasSignature mem signature table := by
  rw [RootTable] at hroot
  by_cases hfirst : r.revision = 0#8
  · rw [if_pos hfirst] at hroot
    rw [FindsTable, findSdt_rsdt hroot]
    exact iff_of_true ⟨rfl, fun a ha => mem_of_mem_upToFirst ha⟩ (.inl hfirst)
  · rw [if_neg hfirst] at hroot
    rw [FindsTable, findSdt_rsdt hroot.rsdt]
    cases tables with
    | nil => exact iff_of_true ⟨rfl, fun a ha => ha⟩ (.inr (.inl rfl))
    | cons table tables =>
        rw [halves, upToFirst, firstTable, firstTable]
        by_cases h : HasSignature mem signature table
        · rw [if_pos h, List.find?_cons_of_pos (by simp [h]), List.find?_cons_of_pos (by simp [h])]
          refine iff_of_true ⟨rfl, fun a ha => ?_⟩ (.inr (.inr ⟨table, rfl, h⟩))
          rw [List.mem_singleton.mp ha]
          exact List.mem_cons_self
        · -- the second word is the high half of the first pointer
          have hnext : 0#32 ∈ upToFirst mem signature (0#32 :: halves tables) := by
            rw [upToFirst]
            split <;> exact List.mem_cons_self
          rw [if_neg h]
          refine iff_of_false
            (fun hfinds => hnull (hfinds.2 0#32 (List.mem_cons_of_mem _ hnext))) ?_
          rintro (hzero | hnil | ⟨t, ht, hsig⟩)
          · exact hfirst hzero
          · exact List.cons_ne_nil table tables hnil
          · cases ht
            exact h hsig

/-- `reinit_acpi`, which goes through the same words, looks at listed tables only if the root table
    is an RSDT or is empty. -/
theorem reinitAcpi_listed_iff (mapPhysObj : Nat → BitVec 32 → BitVec 32 → BitVec 32) (mem : ByteMem)
    (r : Rsdp) (rsdtLen : BitVec 32) (tables : List (BitVec 32))
    (hroot : RootTable mem r.revision (findRsdt r) tables) (hnull : 0#32 ∉ tables) :
    (∀ a ∈ (reinitAcpi mapPhysObj mem (findRsdt r) rsdtLen).2.2, a ∈ tables) ↔
      r.revision = 0#8 ∨ tables = [] := by
  rw [RootTable] at hroot
  by_cases hfirst : r.revision = 0#8
  · rw [if_pos hfirst] at hroot
    rw [reinitAcpi_derefs mapPhysObj rsdtLen hroot]
    exact iff_of_true (fun a ha => ha) (.inl hfirst)
  · rw [if_neg hfirst] at hroot
    rw [reinitAcpi_derefs mapPhysObj rsdtLen hroot.rsdt]
    cases tables with
    | nil => exact iff_of_true (fun a ha => ha) (.inr rfl)
    | cons table tables =>
        refine iff_of_false (fun h => hnull (h 0#32 ?_)) ?_
        · rw [halves]
          exact List.mem_cons_of_mem table List.mem_cons_self
        · rintro (hzero | hnil)
          · exact hfirst hzero
          · exact List.cons_ne_nil table tables hnil

/-- The two tables that the examples below look for. -/
def apicAndHpet : ByteMem :=
  writeWord (writeWord (fun _ => 0#8) 0x2000#32 0x43495041#32) 0x3000#32 0x54455048#32

/-- `"HPET"`. -/
def hpet : Fin 4 → BitVec 8 := fun j => [72#8, 80#8, 69#8, 84#8].get j

/-- An RSDT at `0x1000` that lists the tables. -/
def rsdtMemory : ByteMem :=
  writeWord (writeWord (writeWord apicAndHpet 0x1004#32 44#32) 0x1024#32 0x2000#32)
    0x1028#32 0x3000#32

/-- An XSDT at 1 MiB that lists the tables. -/
def xsdtMemory : ByteMem :=
  writeWord (writeWord (writeWord apicAndHpet 0x100004#32 52#32) 0x100024#32 0x2000#32)
    0x10002C#32 0x3000#32

/-- A root pointer of revision 0 whose RSDT is at `0x1000`. -/
def revisionZero : Bytes := fun i =>
  [82#8, 83#8, 68#8, 32#8, 80#8, 84#8, 82#8, 32#8, 209#8, 0#8, 0#8, 0#8, 0#8, 0#8, 0#8, 0#8,
    0#8, 16#8].getD i 0#8

theorem findSdt_finds_iff_hpet : FindsTable rsdtMemory (findRsdt (Rsdp.ofBytes revisionZero)) hpet
    [0x2000#32, 0x3000#32] :=
  (findSdt_finds_iff rsdtMemory (Rsdp.ofBytes revisionZero) hpet [0x2000#32, 0x3000#32]
    (by
      rw [RootTable, if_pos (by decide)]
      exact ⟨by decide, by decide⟩)
    (by decide)).mpr (.inl (by decide))

/-- In an XSDT the null pointer is looked at before the second table. -/
theorem xsdt_null_dereferenced : ∃ (mem : ByteMem) (image : Bytes) (signature : Fin 4 → BitVec 8)
    (tables : List (BitVec 32)), ChecksumsRight image ∧ (Rsdp.ofBytes image).revision = 2#8 ∧
      RootTable mem 2#8 (findRsdt (Rsdp.ofBytes image)) tables ∧ 0#32 ∉ tables ∧
      0#32 ∈ (findSdt mem (findRsdt (Rsdp.ofBytes image)) signature).2 ∧
      ¬ FindsTable mem (findRsdt (Rsdp.ofBytes image)) signature tables := by
  have hderefs : 0#32 ∈ (findSdt xsdtMemory (findRsdt (Rsdp.ofBytes revisionTwo)) hpet).2 := by
    decide
  have hnull : 0#32 ∉ [0x2000#32, 0x3000#32] := by decide
  refine ⟨xsdtMemory, revisionTwo, hpet, [0x2000#32, 0x3000#32], ⟨by decide, fun _ => by decide⟩,
    by decide, ?_, hnull, hderefs, fun hfinds => hnull (hfinds.2 0#32 hderefs)⟩
  rw [RootTable, if_neg (by decide)]
  exact ⟨by decide, by decide, by decide⟩

end Muse.Acpi
