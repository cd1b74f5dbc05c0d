import Muse.Library.Links
import Muse.Paging.Initial

/-!
# Lists of scrolls

`insert_scroll` of `src/common/scroll.c` edits a list of scrolls in place. A scroll is a record in
memory, and the pointers to it are addresses. `kmalloc` is the list `fresh` of the pointers that it
returns next, with any contents in the records that they point to. `kfree` of a scroll writes
the link of its tier over the first field, the address; the others keep their contents.
-/

namespace Muse.Paging

open Muse.Library

/-- `struct scroll` with its link. -/
structure ScrollNode extends Scroll where
  next : BitVec 32
  deriving DecidableEq, Repr

/-- The scrolls in memory. -/
structure ScrollMem where
  node : BitVec 32 → ScrollNode
  fresh : List (BitVec 32)

namespace ScrollMem

/-- The record at `p` is replaced. -/
def set (m : ScrollMem) (p : BitVec 32) (x : ScrollNode) : ScrollMem :=
  { m with node := Function.update m.node p x }

/-- The field `next` as a function of the pointer. -/
def next (m : ScrollMem) (p : BitVec 32) : BitVec 32 := (m.node p).next

/-- The scroll at `p`. -/
def scroll (m : ScrollMem) (p : BitVec 32) : Scroll := (m.node p).toScroll

/-- `p->next = x`. -/
def setNext (m : ScrollMem) (p x : BitVec 32) : ScrollMem := m.set p { m.node p with next := x }

/-- `kmalloc(sizeof(struct scroll))`; out of memory, the kernel halts. -/
def kmalloc (m : ScrollMem) : Option (BitVec 32 × ScrollMem) :=
  match m.fresh with
  | [] => none
  | p :: ps => some (p, { m with fresh := ps })

/-- `kfree(p)`, with the link `x`. -/
def kfree (m : ScrollMem) (x p : BitVec 32) : ScrollMem := m.set p { m.node p with vaddr := x }

end ScrollMem

/-- The scroll that takes over what lies behind `scr_end` (`scroll.c:34-42`). -/
def splitScroll (m : ScrollMem) (first current newScr scrStart scrEnd : BitVec 32) : ScrollMem :=
  let currentStart := (m.node current).vaddr
  let currentEnd := currentStart + (m.node current).size
  let m := m.set newScr {
    vaddr := scrEnd
    size := currentEnd - scrEnd
    type := (m.node current).type
    page := if (m.node current).type = .aligned then (m.node current).page + scrEnd - currentStart
      else (m.node newScr).page
    next := (m.node first).next }
  let m := m.setNext first newScr
  m.set current { m.node current with size := scrStart - currentStart }

/-- The two overlaps that are cut off in place (`scroll.c:45-51`). -/
def cutScroll (m : ScrollMem) (current scrStart scrEnd currentStart currentEnd : BitVec 32) :
    ScrollMem :=
  let m := if currentStart < scrStart ∧ scrStart < currentEnd then
    m.set current { m.node current with size := scrStart - currentStart } else m
  if currentStart < scrEnd ∧ scrEnd < currentEnd then
    m.set current { m.node current with
      vaddr := scrEnd
      size := (m.node current).size - (scrEnd - currentStart) }
  else m

/-- The loop of `insert_scroll` (`scroll.c:20-54`): `first_scr` and the memory at its end. -/
def insertScrollLoop (link scrStart scrEnd : BitVec 32) :
    Nat → ScrollMem → BitVec 32 → BitVec 32 → BitVec 32 → Option (BitVec 32 × ScrollMem)
  | 0, _, _, _, _ => none
  | fuel + 1, m, first, prev, current =>
      if current = 0#32 then some (first, m)
      else
        let currentStart := (m.node current).vaddr
        let currentEnd := currentStart + (m.node current).size
        if scrStart = currentStart ∧ scrEnd = currentEnd then
          if prev ≠ 0#32 then
            let m := (m.setNext prev (m.next current)).kfree link current
            let m := cutScroll m current scrStart scrEnd currentStart currentEnd
            insertScrollLoop link scrStart scrEnd fuel m first current (m.next current)
          else
            let first := m.next first
            let m := m.kfree link current
            let m := cutScroll m current scrStart scrEnd currentStart currentEnd
            insertScrollLoop link scrStart scrEnd fuel m first current (m.next current)
        else if currentStart < scrStart ∧ scrEnd < currentEnd then
          match m.kmalloc with
          | none => none
          | some (newScr, m) =>
              insertScrollLoop link scrStart scrEnd fuel
                (splitScroll m first current newScr scrStart scrEnd) first prev current
        else
          let m := cutScroll m current scrStart scrEnd currentStart currentEnd
          insertScrollLoop link scrStart scrEnd fuel m first current (m.next current)

/-- `insert_scroll` (`scroll.c:12-57`). A list has fewer than `2 ^ 32` scrolls, and one is inserted
    and visited once more at most. -/
def insertScroll (link : BitVec 32) (m : ScrollMem) (scr first : BitVec 32) :
    Option (BitVec 32 × ScrollMem) :=
  if first = 0#32 then some (scr, m)
  else do
    let scrStart := (m.node scr).vaddr
    let scrEnd := scrStart + (m.node scr).size
    let (first, m) ← insertScrollLoop link scrStart scrEnd (2 ^ 33) m first 0#32 first
    some (scr, m.setNext scr first)

/-! ## What the list is to show -/

namespace Scroll

/-- The physical address that the scroll gives to `v`. -/
def physical (scr : Scroll) (v : BitVec 32) : BitVec 32 := scr.page + (v - scr.vaddr)

/-- The scroll has an address, and its end is a 32-bit address. -/
def Proper (scr : Scroll) : Prop := 0 < scr.size.toNat ∧ scr.vaddr.toNat + scr.size.toNat < 2 ^ 32

/-- No address belongs to both. -/
def Apart (scr scr' : Scroll) : Prop := ∀ v, ¬ (scr.Covers v ∧ scr'.Covers v)

end Scroll

/-- `scrolls` is what `old` becomes when `scr` is carved into it. Scrolls that are not aligned have
    no physical addresses. -/
structure Carved (old : List Scroll) (scr : Scroll) (scrolls : List Scroll) : Prop where
  apart : scrolls.Pairwise Scroll.Apart
  covers : ∀ v, (∃ s ∈ scrolls, s.Covers v) ↔ scr.Covers v ∨ ∃ s ∈ old, s.Covers v
  mem : scr ∈ scrolls
  kept : ∀ s ∈ old, ∀ v, s.Covers v → ¬ scr.Covers v → ∃ t ∈ scrolls, t.Covers v ∧
    t.type = s.type ∧ (s.type = .aligned → t.physical v = s.physical v)

/-- The list that `insert_scroll` returns: the pointer `scr` is on it, with its scroll unchanged. -/
def Inserts (link : BitVec 32) (m : ScrollMem) (scr first : BitVec 32) (old : List Scroll) : Prop :=
  ∃ r m' l, insertScroll link m scr first = some (r, m') ∧ Chain m'.next 0#32 r l ∧ scr ∈ l ∧
    m'.scroll scr = m.scroll scr ∧ Carved old (m.scroll scr) (l.map m'.scroll)

end Muse.Paging
