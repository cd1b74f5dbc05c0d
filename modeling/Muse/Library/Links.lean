import Mathlib.Data.List.Basic
import Mathlib.Data.List.Nodup
import Mathlib.Logic.Function.Basic

/-!
# Singly linked lists threaded through a `next` field

`Chain next null p l` says that the null-terminated list that starts at `p` and
follows the field `next` has exactly the nodes `l`. The lemmas are the edits that
list code makes: prepending a node, appending a node behind the last one, unlinking
a node and changing a field of a node that is not on the list.
-/

namespace Muse.Library

variable {α : Type}

/-- The nodes of the null-terminated list from `p` along `next` are `l`. -/
def Chain (next : α → α) (null : α) : α → List α → Prop
  | p, [] => p = null
  | p, c :: cs => p = c ∧ c ≠ null ∧ Chain next null (next c) cs

variable {next next' : α → α} {null p q : α} {l l₁ l₂ : List α}

@[simp] theorem chain_nil : Chain next null p [] ↔ p = null := Iff.rfl

@[simp] theorem chain_cons {c : α} {cs : List α} :
    Chain next null p (c :: cs) ↔ p = c ∧ c ≠ null ∧ Chain next null (next c) cs := Iff.rfl

theorem Chain.ne_null : ∀ {l : List α} {p : α}, Chain next null p l → ∀ c ∈ l, c ≠ null
  | [], _, _, _, hc => nomatch hc
  | d :: cs, _, ⟨_, hd, hcs⟩, c, hc => by
      rcases List.mem_cons.mp hc with rfl | hc
      · exact hd
      · exact hcs.ne_null c hc

/-- A list starts at null exactly when it is empty. -/
theorem Chain.eq_null_iff (h : Chain next null p l) : p = null ↔ l = [] := by
  cases l with
  | nil => simpa using h
  | cons c cs =>
      obtain ⟨rfl, hc, _⟩ := h
      simp [hc]

/-- Only the `next` fields of the nodes themselves matter. -/
theorem Chain.congr : ∀ {l : List α} {p : α}, Chain next null p l →
    (∀ c ∈ l, next' c = next c) → Chain next' null p l
  | [], _, h, _ => h
  | c :: cs, _, ⟨hp, hc, hcs⟩, hag => by
      refine ⟨hp, hc, ?_⟩
      rw [hag c List.mem_cons_self]
      exact hcs.congr fun d hd => hag d (List.mem_cons_of_mem _ hd)

/-- Changing the field of a node that is not on the list keeps the list. -/
theorem Chain.update [DecidableEq α] (h : Chain next null p l) {c : α} (v : α) (hc : c ∉ l) :
    Chain (Function.update next c v) null p l :=
  h.congr fun d hd => Function.update_of_ne (by rintro rfl; exact hc hd) _ _

/-- Writing the field `v` of a new node `c` in front of the list from `v`. -/
theorem Chain.cons_update [DecidableEq α] (h : Chain next null p l) {c : α} (hnull : c ≠ null)
    (hc : c ∉ l) : Chain (Function.update next c p) null c (c :: l) := by
  refine ⟨rfl, hnull, ?_⟩
  rw [Function.update_self]
  exact h.update p hc

/-- Appending the node `c` behind the last node `d`. -/
theorem Chain.snoc_update [DecidableEq α] : ∀ {l : List α} {p d c : α},
    Chain next null p (l ++ [d]) → (l ++ [d]).Nodup → c ≠ null → c ∉ l ++ [d] → next c = null →
      Chain (Function.update next d c) null p (l ++ [d] ++ [c])
  | [], p, d, c, ⟨hp, hd, _⟩, _, hc, hcm, hnext => by
      refine ⟨hp, hd, ?_⟩
      have hne : c ≠ d := by simpa using hcm
      refine ⟨by simp, hc, ?_⟩
      rw [Function.update_of_ne hne]
      exact hnext
  | e :: l, p, d, c, ⟨hp, he, hl⟩, hnd, hc, hcm, hnext => by
      obtain ⟨hel, hnd⟩ := List.nodup_cons.mp hnd
      have hed : e ≠ d := by
        rintro rfl
        exact hel (by simp)
      refine ⟨hp, he, ?_⟩
      rw [Function.update_of_ne hed]
      exact hl.snoc_update hnd hc (fun hm => hcm (List.mem_cons_of_mem _ hm)) hnext

/-- Unlinking the node `c` behind `d`: the field of `d` takes over the field of `c`. -/
theorem Chain.unlink_update [DecidableEq α] : ∀ {l₁ : List α} {p d c : α} {l₂ : List α},
    Chain next null p (l₁ ++ d :: c :: l₂) → (l₁ ++ d :: c :: l₂).Nodup →
      Chain (Function.update next d (next c)) null p (l₁ ++ d :: l₂)
  | [], p, d, c, l₂, ⟨hp, hd, _, _, hl⟩, hnd => by
      refine ⟨hp, hd, ?_⟩
      rw [Function.update_self]
      refine hl.update _ fun hm => ?_
      exact (List.nodup_cons.mp hnd).1 (List.mem_cons_of_mem _ hm)
  | e :: l₁, p, d, c, l₂, ⟨hp, he, hl⟩, hnd => by
      obtain ⟨hel, hnd⟩ := List.nodup_cons.mp hnd
      have hed : e ≠ d := by
        rintro rfl
        exact hel (by simp)
      refine ⟨hp, he, ?_⟩
      rw [Function.update_of_ne hed]
      exact hl.unlink_update hnd

/-! ## Segments -/

/-- From `p` on, the field `next` leads through the nodes `l` to `q`. -/
def Segment (next : α → α) : α → List α → α → Prop
  | p, [], q => p = q
  | p, c :: cs, q => p = c ∧ Segment next (next c) cs q

/-- A list consists of a segment and the list from its end. -/
theorem Chain.split {l₁ l₂ : List α} {p : α} (h : Chain next null p (l₁ ++ l₂)) :
    ∃ q, Segment next p l₁ q ∧ Chain next null q l₂ := by
  induction l₁ generalizing p with
  | nil => exact ⟨p, rfl, h⟩
  | cons c cs ih =>
      obtain ⟨rfl, -, hcs⟩ := h
      obtain ⟨q, hseg, hq⟩ := ih hcs
      exact ⟨q, ⟨rfl, hseg⟩, hq⟩

theorem Chain.segment {p : α} (h : Chain next null p l) : Segment next p l null := by
  obtain ⟨q, hseg, hq⟩ := Chain.split ((List.append_nil l).symm ▸ h)
  rw [chain_nil.mp hq] at hseg
  exact hseg

theorem Segment.congr {p q : α} {l : List α} (h : Segment next p l q)
    (hag : ∀ c ∈ l, next' c = next c) : Segment next' p l q := by
  induction l generalizing p with
  | nil => exact h
  | cons c cs ih =>
      obtain ⟨hp, hcs⟩ := h
      refine ⟨hp, ?_⟩
      rw [hag c List.mem_cons_self]
      exact ih hcs fun d hd => hag d (List.mem_cons_of_mem _ hd)

/-- A new node `c` in front of a segment. -/
theorem Segment.cons_update [DecidableEq α] {p q : α} {l : List α} (h : Segment next p l q) {c : α}
    (hc : c ∉ l) : Segment (Function.update next c p) c (c :: l) q := by
  refine ⟨rfl, ?_⟩
  rw [Function.update_self]
  exact h.congr fun d hd => Function.update_of_ne (by rintro rfl; exact hc hd) _ _

/-- A list that starts with a segment goes on where the segment ends. -/
theorem Segment.rest_of_chain {p q : α} {l m : List α} (h : Segment next p l q) (hnull : null ∉ l)
    (hm : Chain next null p m) : ∃ rest, m = l ++ rest ∧ Chain next null q rest := by
  induction l generalizing p m with
  | nil =>
      cases h
      exact ⟨m, rfl, hm⟩
  | cons c cs ih =>
      obtain ⟨rfl, hcs⟩ := h
      cases m with
      | nil => exact absurd List.mem_cons_self (hm ▸ hnull)
      | cons d ds =>
          obtain ⟨rfl, -, hds⟩ := hm
          obtain ⟨rest, rfl, hrest⟩ := ih hcs (fun hmem => hnull (List.mem_cons_of_mem _ hmem)) hds
          exact ⟨rest, rfl, hrest⟩

theorem Segment.append_chain {p q : α} {l m : List α} (h : Segment next p l q) (hnull : null ∉ l)
    (hm : Chain next null q m) : Chain next null p (l ++ m) := by
  induction l generalizing p with
  | nil =>
      cases h
      exact hm
  | cons c cs ih =>
      obtain ⟨rfl, hcs⟩ := h
      refine ⟨rfl, fun he => hnull (he ▸ List.mem_cons_self), ?_⟩
      exact ih hcs fun hmem => hnull (List.mem_cons_of_mem _ hmem)

/-- A list can be followed from any of its nodes. -/
theorem Chain.from_node {p q : α} {l₁ l₂ : List α} (h : Chain next null p (l₁ ++ q :: l₂)) :
    Chain next null q (q :: l₂) := by
  induction l₁ generalizing p with
  | nil => exact ⟨rfl, h.2⟩
  | cons c cs ih => exact ih h.2.2

/-- A pointer starts one list at most. -/
theorem Chain.unique {p : α} {l m : List α} (h : Chain next null p l) (h' : Chain next null p m) :
    l = m := by
  induction l generalizing p m with
  | nil => exact (h'.eq_null_iff.mp h).symm
  | cons c cs ih =>
      obtain ⟨rfl, hne, hcs⟩ := h
      cases m with
      | nil => exact absurd h' hne
      | cons d ds =>
          obtain ⟨rfl, -, hds⟩ := h'
          rw [ih hcs hds]

/-- No node is on a list twice. -/
theorem Chain.nodup {p : α} {l : List α} (h : Chain next null p l) : l.Nodup := by
  induction l generalizing p with
  | nil => exact List.nodup_nil
  | cons c cs ih =>
      obtain ⟨rfl, hne, hcs⟩ := h
      refine List.nodup_cons.mpr ⟨fun hmem => ?_, ih hcs⟩
      obtain ⟨l₁, l₂, rfl⟩ := List.append_of_mem hmem
      have hlen := congrArg List.length (hcs.from_node.unique (chain_cons.mpr ⟨rfl, hne, hcs⟩))
      rw [List.length_cons, List.length_cons, List.length_append, List.length_cons] at hlen
      omega

/-- The list has exactly the nodes of a segment if and only if the segment ends at null. Where it
    ends at one of its own nodes, the list does not end. -/
theorem Segment.exactly_iff {p q : α} {l : List α} (h : Segment next p l q) (hnull : null ∉ l) :
    (∃ m, Chain next null p m ∧ ∀ c, c ∈ m ↔ c ∈ l) ↔ q = null := by
  constructor
  · rintro ⟨m, hm, hsame⟩
    obtain ⟨rest, rfl, hrest⟩ := h.rest_of_chain hnull hm
    cases rest with
    | nil => exact hrest
    | cons d ds =>
        obtain ⟨rfl, hne, hds⟩ := hrest
        have hmem : q ∈ l := (hsame q).mp (List.mem_append_right _ List.mem_cons_self)
        obtain ⟨l₁, l₂, rfl⟩ := List.append_of_mem hmem
        rw [List.append_assoc, List.cons_append] at hm
        have hlong : Chain next null q (q :: (l₂ ++ q :: ds)) := hm.from_node
        have hlen := congrArg List.length (hlong.unique (chain_cons.mpr ⟨rfl, hne, hds⟩))
        rw [List.length_cons, List.length_cons, List.length_append, List.length_cons] at hlen
        omega
  · rintro rfl
    exact ⟨l, by simpa using h.append_chain hnull (m := []) rfl, fun _ => Iff.rfl⟩

end Muse.Library
