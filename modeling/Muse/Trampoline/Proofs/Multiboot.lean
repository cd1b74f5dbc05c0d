import Muse.Library.CString
import Muse.Library.Fuel
import Muse.Trampoline.Multiboot

/-!
# The walk over the tags

Each round of `multiboot_find_tag` stands at the next tag of the list, as the end of a tag padded to
a multiple of 8 is where the encoding puts the one behind it. The total size admits all tags, and
no address behind their end.
-/

namespace Muse.Trampoline

open Library

theorem le_pad (n : Nat) : n ≤ pad n := by
  rw [pad]
  omega

theorem dvd_pad (n : Nat) : 8 ∣ pad n :=
  Nat.dvd_mul_left 8 _

theorem pad_of_dvd {n : Nat} (h : 8 ∣ n) : pad n = n := by
  rw [pad]
  omega

variable {mem : ByteMem} {multiboot type : BitVec 32} {o : Nat} {tags : List MultibootTag}

/-- The end of the last tag is behind the place where the tags start. -/
theorem le_tagsEnd (o : Nat) (tags : List MultibootTag) : o ≤ tagsEnd o tags := by
  induction tags generalizing o with
  | nil => exact Nat.le_refl o
  | cons t tags ih =>
      cases tags with
      | nil => exact Nat.le_add_right o _
      | cons u tags =>
          have hpad := le_pad (o + t.size.toNat)
          exact Nat.le_trans (by omega) (ih (pad (o + t.size.toNat)))

/-- Behind the first tag the rest is at the next multiple of 8, or the tag was the last one. -/
theorem tagsEnd_cons (o : Nat) (t : MultibootTag) (tags : List MultibootTag) :
    o + t.size.toNat ≤ tagsEnd o (t :: tags) ∧
      pad (tagsEnd o (t :: tags)) = pad (tagsEnd (pad (o + t.size.toNat)) tags) := by
  cases tags with
  | nil => exact ⟨Nat.le_refl _, (pad_of_dvd (dvd_pad _)).symm⟩
  | cons u tags => exact ⟨Nat.le_trans (le_pad _) (le_tagsEnd _ _), rfl⟩

theorem mem_places_end {p : Nat × MultibootTag} (hp : p ∈ places o tags) :
    o ≤ p.1 ∧ p.1 + p.2.size.toNat ≤ tagsEnd o tags := by
  induction tags generalizing o with
  | nil => exact absurd hp List.not_mem_nil
  | cons t tags ih =>
      rcases List.mem_cons.mp hp with rfl | hp
      · exact ⟨Nat.le_refl o, (tagsEnd_cons o t tags).1⟩
      · cases tags with
        | nil => exact absurd hp List.not_mem_nil
        | cons u tags =>
            obtain ⟨hlo, hhi⟩ := ih hp
            exact ⟨Nat.le_trans (Nat.le_trans (Nat.le_add_right o _) (le_pad _)) hlo, hhi⟩

/-- The step from a tag to the next one. -/
theorem nextTag_eq {size : BitVec 32} (haligned : 8 ∣ multiboot.toNat)
    (hsize : readWord mem (multiboot + BitVec.ofNat 32 o + 4#32) = size)
    (hfits : multiboot.toNat + pad (o + size.toNat) < 2 ^ 32) :
    nextTag mem (multiboot + BitVec.ofNat 32 o) =
      multiboot + BitVec.ofNat 32 (pad (o + size.toNat)) := by
  have hle := le_pad (o + size.toNat)
  have htag := toNat_add_ofNat (s := multiboot) (i := o) (by omega)
  have hend : (multiboot + BitVec.ofNat 32 o + size).toNat = multiboot.toNat + o + size.toNat := by
    rw [BitVec.toNat_add, htag, Nat.mod_eq_of_lt (by omega)]
  have hmod : ((multiboot + BitVec.ofNat 32 o + size) % 8#32).toNat =
      (multiboot.toNat + o + size.toNat) % 8 := by
    rw [BitVec.toNat_umod, hend]
    rfl
  have hpos : 0#32 < (multiboot + BitVec.ofNat 32 o + size) % 8#32 ↔
      0 < (multiboot.toNat + o + size.toNat) % 8 := by
    rw [BitVec.lt_def, hmod]
    exact Iff.rfl
  apply BitVec.eq_of_toNat_eq
  rw [toNat_add_ofNat hfits, nextTag, hsize]
  rw [pad] at hfits hle ⊢
  by_cases h : 0 < (multiboot.toNat + o + size.toNat) % 8
  · rw [if_pos (hpos.mpr h), BitVec.toNat_sub, BitVec.toNat_add, hmod, hend, BitVec.toNat_ofNat]
    omega
  · rw [if_neg (fun h' => h (hpos.mp h')), hend]
    omega

/-- A header of the list, inside the structure. -/
def Inside (mem : ByteMem) (multiboot : BitVec 32) (tags : List (Nat × MultibootTag))
    (tag : BitVec 32) : Prop :=
  (∃ p ∈ tags, tag = multiboot + BitVec.ofNat 32 p.1) ∧ multiboot.toNat + 8 ≤ tag.toNat ∧
    tag.toNat + 8 ≤ multiboot.toNat + (readWord mem multiboot).toNat

/-- The loop stands at the offset `o`, with the tags that are left. -/
structure Stands (mem : ByteMem) (multiboot : BitVec 32) (o : Nat) (tags : List MultibootTag) : Prop
    where
  start : 8 ≤ o
  padded : 8 ∣ o
  sizes : ∀ t ∈ tags, 8 ≤ t.size.toNat
  headers : ∀ p ∈ places o tags,
    readWord mem (multiboot + BitVec.ofNat 32 p.1) = p.2.type ∧
      readWord mem (multiboot + BitVec.ofNat 32 p.1 + 4#32) = p.2.size
  inside : ∀ p ∈ places o tags, p.1 + p.2.size.toNat ≤ (readWord mem multiboot).toNat
  total : (readWord mem multiboot).toNat ≤ pad (tagsEnd o tags)
  fits : multiboot.toNat + pad (tagsEnd o tags) < 2 ^ 32

theorem Encodes.stands (h : Encodes mem multiboot tags) : Stands mem multiboot 8 tags where
  start := Nat.le_refl 8
  padded := Nat.dvd_refl 8
  sizes := h.sizes
  headers := h.headers
  inside := by
    intro p hp
    have hend := (mem_places_end hp).2
    have hle := le_pad (tagsEnd 8 tags)
    have htotal := h.total
    omega
  total := by
    have hle := le_pad (tagsEnd 8 tags)
    have htotal := h.total
    omega
  fits := h.fits

theorem Stands.tag (h : Stands mem multiboot o tags) :
    (multiboot + BitVec.ofNat 32 o).toNat = multiboot.toNat + o := by
  have hend := Nat.le_trans (le_tagsEnd o tags) (le_pad _)
  have hfits := h.fits
  exact toNat_add_ofNat (by omega)

theorem Stands.limit (h : Stands mem multiboot o tags) :
    (multiboot + readWord mem multiboot).toNat =
      multiboot.toNat + (readWord mem multiboot).toNat := by
  rw [BitVec.toNat_add,
    Nat.mod_eq_of_lt (Nat.lt_of_le_of_lt (Nat.add_le_add_left h.total _) h.fits)]

/-- Behind the last tag the loop ends. -/
theorem Stands.ends (h : Stands mem multiboot o []) :
    ¬ multiboot + BitVec.ofNat 32 o < multiboot + readWord mem multiboot := by
  have htotal := h.total
  rw [tagsEnd, pad_of_dvd h.padded] at htotal
  rw [BitVec.lt_def, h.tag, h.limit]
  omega

variable {t : MultibootTag}

theorem places_head : (o, t) ∈ places o (t :: tags) := List.mem_cons_self

/-- The header at which the loop stands is inside the structure. -/
theorem Stands.header (h : Stands mem multiboot o (t :: tags)) :
    multiboot.toNat + 8 ≤ (multiboot + BitVec.ofNat 32 o).toNat ∧
      (multiboot + BitVec.ofNat 32 o).toNat + 8 ≤
        multiboot.toNat + (readWord mem multiboot).toNat := by
  have hstart := h.start
  have hsize := h.sizes t List.mem_cons_self
  have hinside := h.inside (o, t) places_head
  dsimp only at hinside
  rw [h.tag]
  omega

/-- At a tag the loop goes on. -/
theorem Stands.lt (h : Stands mem multiboot o (t :: tags)) :
    multiboot + BitVec.ofNat 32 o < multiboot + readWord mem multiboot := by
  have hheader := h.header.2
  rw [BitVec.lt_def, h.limit]
  omega

theorem Stands.tail (h : Stands mem multiboot o (t :: tags)) :
    Stands mem multiboot (pad (o + t.size.toNat)) tags where
  start := Nat.le_trans h.start (Nat.le_trans (Nat.le_add_right o _) (le_pad _))
  padded := dvd_pad _
  sizes := fun u hu => h.sizes u (List.mem_cons_of_mem t hu)
  headers := fun p hp => h.headers p (List.mem_cons_of_mem _ hp)
  inside := fun p hp => h.inside p (List.mem_cons_of_mem _ hp)
  total := (tagsEnd_cons o t tags).2 ▸ h.total
  fits := (tagsEnd_cons o t tags).2 ▸ h.fits

theorem Stands.nextTag (h : Stands mem multiboot o (t :: tags)) (haligned : 8 ∣ multiboot.toNat) :
    nextTag mem (multiboot + BitVec.ofNat 32 o) =
      multiboot + BitVec.ofNat 32 (pad (o + t.size.toNat)) := by
  have hend := Nat.le_trans (le_tagsEnd (pad (o + t.size.toNat)) tags) (le_pad _)
  exact nextTag_eq haligned (h.headers (o, t) places_head).2
    (Nat.lt_of_le_of_lt (Nat.add_le_add_left hend _) h.tail.fits)

/-- The loop from the tag at `o` on, with the tags that are left. -/
theorem findTagLoop_spec (type : BitVec 32) (haligned : 8 ∣ multiboot.toNat)
    (h : Stands mem multiboot o tags) {all : List (Nat × MultibootTag)}
    (hall : ∀ p ∈ places o tags, p ∈ all) (inspected : List (BitVec 32))
    (hseen : ∀ tag ∈ inspected, Inside mem multiboot all tag) :
    ∃ inspected', (∀ tag ∈ inspected', Inside mem multiboot all tag) ∧
      ∀ fuel, tags.length < fuel →
        findTagLoop mem multiboot type fuel (multiboot + BitVec.ofNat 32 o) inspected =
          some (firstTag multiboot type (places o tags), inspected') := by
  induction tags generalizing o inspected with
  | nil =>
      refine ⟨inspected, hseen, fuel_stop (fun fuel => ?_) 0⟩
      rw [findTagLoop, if_neg h.ends, firstTag, places]
      rfl
  | cons t tags ih =>
      have htype := (h.headers (o, t) places_head).1
      have hseen' : ∀ tag ∈ inspected ++ [multiboot + BitVec.ofNat 32 o],
          Inside mem multiboot all tag := by
        intro tag hmem
        rcases List.mem_append.mp hmem with hmem | hmem
        · exact hseen tag hmem
        · rw [List.mem_singleton.mp hmem]
          exact ⟨⟨_, hall _ places_head, rfl⟩, h.header⟩
      by_cases hfound : t.type = type
      · refine ⟨_, hseen', fuel_stop (fun fuel => ?_) (tags.length + 1)⟩
        rw [findTagLoop, if_pos h.lt, if_pos (htype.trans hfound), firstTag, places,
          List.find?_cons_of_pos (by simp [hfound])]
        rfl
      · obtain ⟨inspected', hinspected, hloop⟩ := ih h.tail
          (fun p hp => hall p (List.mem_cons_of_mem _ hp)) _ hseen'
        rw [firstTag, places, List.find?_cons_of_neg (by simp [hfound])]
        refine ⟨inspected', hinspected, fuel_next (fun fuel => ?_) hloop⟩
        rw [findTagLoop, if_pos h.lt, if_neg (fun heq => hfound (htype.symm.trans heq)),
          h.nextTag haligned]

/-- On the encoding of a list of tags, `multiboot_find_tag` ends with the first tag of the type, or
    null, and inspects only headers of tags inside the structure. -/
theorem multibootFindTag_finds (mem : ByteMem) (multiboot type : BitVec 32)
    (tags : List MultibootTag) (h : Encodes mem multiboot tags) :
    ∃ inspected, Returns (multibootFindTag mem multiboot type)
        (firstTag multiboot type (places 8 tags), inspected) ∧
      ∀ tag ∈ inspected, Inside mem multiboot (places 8 tags) tag := by
  obtain ⟨inspected, hinspected, hloop⟩ := findTagLoop_spec type h.aligned h.stands
    (fun p hp => hp) [] (fun tag hmem => absurd hmem List.not_mem_nil)
  exact ⟨inspected, ⟨tags.length + 1, hloop⟩, hinspected⟩

/-- A module tag of 9 bytes and the end tag, which starts 16 bytes behind it. -/
def twoTags : ByteMem :=
  writeWord (writeWord (writeWord (writeWord (writeWord (fun _ => 0#8) 0x1000#32 32#32)
    0x1008#32 3#32) 0x100C#32 9#32) 0x1018#32 0#32) 0x101C#32 8#32

theorem multibootFindTag_finds_end :
    ∃ inspected, Returns (multibootFindTag twoTags 0x1000#32 0#32) (0x1018#32, inspected) ∧
      ∀ tag ∈ inspected, Inside twoTags 0x1000#32 [(8, ⟨3#32, 9#32⟩), (24, ⟨0#32, 8#32⟩)] tag :=
  multibootFindTag_finds twoTags 0x1000#32 0#32 [⟨3#32, 9#32⟩, ⟨0#32, 8#32⟩]
    ⟨by decide, by decide, by decide, by decide, by decide⟩

end Muse.Trampoline
