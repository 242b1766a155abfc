import Bionic.Linker.LinkedList
import Mathlib.Data.List.Nodup
import Mathlib.Data.List.ReduceOption
import Mathlib.Algebra.Order.BigOperators.Group.List
import Mathlib.Algebra.Order.Group.Nat

/-
  What a well-formed `LinkedList` is, and what each operation does to one.

  1. **Chains** — `Seg h p q as s`: following `next` from `p` in the heap `h` visits the
     entries `as`, holding the slots `s`, and arrives at `q`.  The lemmas say how a chain is
     taken apart (`cons_inv`, `split_last`) and that it survives any heap change outside
     its entries (`frame`).
  2. **The representation invariant** — `Repr h l as s`: the chain from `head_` ends at null,
     its entries are distinct, and `tail_` is the last of them (`Repr.wellFormed` reads this
     back as the two pointers).  `Footprint` says what a call does to the rest of the heap:
     nothing outside the list's entries before and after, the entries after are allocated,
     the ones it unlinked are not, and the ones it linked in were not allocated before.
  3. **One spec per operation** — `pushFront_spec`, `pushBack_spec`, `popFront_spec` on a
     well-formed list; the three loops in closed form over the chain (`clearLoop_eq`,
     `forEach_eq`, `removeIf_eq`): with at least one unit of fuel per entry they return the
     value below, with less they run out.  The heap `pop_front`, `clear` and `remove_if` leave
     is `Heap.mapAt`, the heap with some of the chain's entries rewritten or freed.
-/

namespace Bionic.Linker

open LinkedList

variable {T : Type}

/-! ## Chains -/

/-- Following `next` from `p` visits the entries `as`, with elements `s`, and arrives at `q`. -/
inductive Seg (h : Heap T) : Option Nat → Option Nat → List Nat → List (Option T) → Prop
  | nil (p : Option Nat) : Seg h p p [] []
  | cons {a : Nat} {e : Entry T} {q : Option Nat} {as : List Nat} {s : List (Option T)} :
      h a = some e → Seg h e.next q as s → Seg h (some a) q (a :: as) (e.element :: s)

namespace Seg

variable {h h' : Heap T} {p q : Option Nat} {as : List Nat} {s : List (Option T)}

theorem isSome_of_mem (hs : Seg h p q as s) {b : Nat} (hb : b ∈ as) : (h b).isSome := by
  induction hs with
  | nil => simp at hb
  | cons ha _ ih =>
    rcases List.mem_cons.1 hb with rfl | hb
    · simp [ha]
    · exact ih hb

/-- A chain only reads its own entries. -/
theorem frame (hs : Seg h p q as s) (hf : ∀ b ∈ as, h' b = h b) : Seg h' p q as s := by
  induction hs with
  | nil => exact .nil _
  | cons ha _ ih =>
    exact .cons ((hf _ (List.mem_cons_self _ _)).trans ha)
      (ih fun b hb => hf b (List.mem_cons_of_mem _ hb))

theorem snoc {t : Nat} {e : Entry T} (hs : Seg h p q as s) (hq : q = some t) (ht : h t = some e) :
    Seg h p e.next (as ++ [t]) (s ++ [e.element]) := by
  induction hs with
  | nil => subst hq; exact .cons ht (.nil _)
  | cons ha _ ih => exact .cons ha (ih hq)

/-- A chain from null is empty. -/
theorem eq_nil_of_none (hs : Seg h none none as s) : as = [] ∧ s = [] := by
  cases hs; exact ⟨rfl, rfl⟩

theorem nil_inv (hs : Seg h p q [] s) : p = q ∧ s = [] := by
  cases hs; exact ⟨rfl, rfl⟩

theorem cons_inv {a : Nat} (hs : Seg h p q (a :: as) s) :
    ∃ e s', p = some a ∧ h a = some e ∧ s = e.element :: s' ∧ Seg h e.next q as s' := by
  cases hs with
  | cons ha hn => exact ⟨_, _, rfl, ha, rfl, hn⟩

/-- A chain that ends at null ends with an entry whose `next` is null. -/
theorem split_last {t : Nat} (hs : Seg h p none (as ++ [t]) s) :
    ∃ s' e, s = s' ++ [e.element] ∧ Seg h p (some t) as s' ∧ h t = some e ∧ e.next = none := by
  induction as generalizing p s with
  | nil =>
    obtain ⟨e, s', rfl, ht, rfl, hn⟩ := cons_inv hs
    obtain ⟨hnext, rfl⟩ := nil_inv hn
    exact ⟨[], e, rfl, .nil _, ht, hnext⟩
  | cons a as ih =>
    obtain ⟨e, s', rfl, ha, rfl, hn⟩ := cons_inv hs
    obtain ⟨s'', e', rfl, hs', ht, hnull⟩ := ih hn
    exact ⟨e.element :: s'', e', rfl, .cons ha hs', ht, hnull⟩

end Seg

/-! ## The representation invariant and the footprint of a call -/

/-- The list `l` holds the slots `s` in the distinct entries `as`, and `tail_` is the last of
    them (both pointers null when `as` is empty). -/
structure Repr (h : Heap T) (l : LinkedList) (as : List Nat) (s : List (Option T)) : Prop where
  chain : Seg h l.head none as s
  nodup : as.Nodup
  tail : l.tail = as.getLast?

/-- What a call does to the heap, for a list whose entries are `as` before and `as'` after:
    it touches nothing else, the entries after are allocated, the ones it unlinked are freed,
    and the ones it linked in were unallocated. -/
structure Footprint (h h' : Heap T) (as as' : List Nat) : Prop where
  frame : ∀ b, b ∉ as → b ∉ as' → h' b = h b
  alloc : ∀ b, (h' b).isSome ↔ b ∈ as' ∨ (b ∉ as ∧ (h b).isSome)
  fresh : ∀ b ∈ as', b ∉ as → h b = none

variable {h h' : Heap T} {l : LinkedList} {as as' : List Nat} {s : List (Option T)}

theorem Repr.empty (h : Heap T) : Repr h LinkedList.empty [] ([] : List (Option T)) :=
  ⟨.nil _, List.nodup_nil, rfl⟩

theorem Repr.not_mem (hr : Repr h l as s) {a : Nat} (ha : h a = none) : a ∉ as := fun hm => by
  simpa [ha] using hr.chain.isSome_of_mem hm

theorem Footprint.of_frame (hnew : ∀ b ∈ as', (h' b).isSome)
    (hfree : ∀ b ∈ as, b ∉ as' → h' b = none) (hframe : ∀ b, b ∉ as → b ∉ as' → h' b = h b)
    (hfresh : ∀ b ∈ as', b ∉ as → h b = none) : Footprint h h' as as' := by
  refine ⟨hframe, fun b => ?_, hfresh⟩
  by_cases h1 : b ∈ as'
  · simp [h1, hnew b h1]
  by_cases h2 : b ∈ as
  · simp [h1, h2, hfree b h2 h1]
  · simp [h1, h2, hframe b h2 h1]

/-- A call that keeps or shortens the chain links nothing in. -/
theorem Footprint.of_sublist (hnew : ∀ b ∈ as', (h' b).isSome)
    (hfree : ∀ b ∈ as, b ∉ as' → h' b = none) (hframe : ∀ b, b ∉ as → h' b = h b)
    (hsub : ∀ b ∈ as', b ∈ as) : Footprint h h' as as' :=
  .of_frame hnew hfree (fun b hb _ => hframe b hb) fun b hb hb' => absurd (hsub b hb) hb'

/-- The heap with the entries at `as` replaced by `f` of themselves. -/
def Heap.mapAt (h : Heap T) (as : List Nat) (f : Entry T → Option (Entry T)) : Heap T :=
  fun b => if b ∈ as then (h b).bind f else h b

theorem Heap.mapAt_nil (h : Heap T) (f : Entry T → Option (Entry T)) : h.mapAt [] f = h := rfl

theorem Heap.mapAt_cons {a : Nat} {e : Entry T} (ha : h a = some e) (hna : a ∉ as)
    (f : Entry T → Option (Entry T)) :
    Heap.mapAt (Function.update h a (f e)) as f = h.mapAt (a :: as) f := by
  funext b
  by_cases hb : b = a
  · subst hb; simp [Heap.mapAt, hna, ha]
  · simp [Heap.mapAt, hb, Function.update_noteq hb]

theorem Heap.mapAt_of_not_mem {b : Nat} (f : Entry T → Option (Entry T)) (hb : b ∉ as) :
    h.mapAt as f b = h b := by
  simp [Heap.mapAt, hb]

/-! ## `push_front`, `push_back`, `pop_front` -/

theorem pushFront_spec (hr : Repr h l as s) {a : Nat} (ha : h a = none) (e : Option T) :
    Repr (pushFront h l a e).1 (pushFront h l a e).2 (a :: as) (e :: s) ∧
      Footprint h (pushFront h l a e).1 as (a :: as) := by
  have hna := hr.not_mem ha
  have hchain : Seg (h.write a ⟨l.head, e⟩) (some a) none (a :: as) (e :: s) :=
    .cons (Heap.write_self _ _ _)
      (hr.chain.frame fun b hb => Heap.write_ne _ fun hba => hna (hba ▸ hb))
  refine ⟨⟨hchain, List.nodup_cons.2 ⟨hna, hr.nodup⟩, ?_⟩,
    .of_frame (fun _ => hchain.isSome_of_mem)
      (fun b hb hb' => absurd (List.mem_cons_of_mem _ hb) hb')
      (fun b _ hb => Heap.write_ne _ fun hba => hb (hba ▸ List.mem_cons_self _ _))
      (fun b hb hb' => ((List.mem_cons.1 hb).resolve_right hb').symm ▸ ha)⟩
  show (if l.tail = none then some a else l.tail) = _
  rw [hr.tail]
  cases as with
  | nil => rfl
  | cons b bs => simp

/-- `pop_front` returns the first slot and frees the first entry: the heap after is the heap
    before with that one entry unallocated. -/
theorem popFront_spec (hr : Repr h l as s) :
    ∃ l', popFront h l =
        some (h.mapAt (as.take 1) (fun _ => none), l', s.head?.join, as.take 1) ∧
      Repr (h.mapAt (as.take 1) fun _ => none) l' as.tail s.tail ∧
      Footprint h (h.mapAt (as.take 1) fun _ => none) as as.tail := by
  cases as with
  | nil =>
    obtain ⟨hh, rfl⟩ := hr.chain.nil_inv
    exact ⟨l, by simp [popFront, hh, Heap.mapAt_nil], hr,
      .of_sublist (by simp) (by simp) (fun _ _ => rfl) (by simp)⟩
  | cons p as =>
    obtain ⟨pe, s', hh, hp, rfl, hn⟩ := hr.chain.cons_inv
    obtain ⟨hnp, hnd⟩ := List.nodup_cons.1 hr.nodup
    have hfree : h.mapAt [p] (fun _ => none) = Function.update h p none :=
      (Heap.mapAt_cons hp (List.not_mem_nil p) _).symm
    have hchain : Seg (Function.update h p none) pe.next none as s' :=
      hn.frame fun b hb => Function.update_noteq (fun hbp : b = p => hnp (hbp ▸ hb)) _ _
    rw [show (p :: as).take 1 = [p] from rfl, hfree]
    refine ⟨⟨pe.next, if pe.next = none then none else l.tail⟩,
      by simp [popFront, hh, hp, Heap.free_of_some hp], ⟨hchain, hnd, ?_⟩,
      .of_sublist (fun _ => hchain.isSome_of_mem) (fun b hb hb' => ?_)
        (fun b hb => Function.update_noteq (List.ne_of_not_mem_cons hb) _ _)
        (fun _ => List.mem_cons_of_mem _)⟩
    · -- the new tail
      show (if pe.next = none then none else l.tail) = as.getLast?
      split
      · rename_i hnone
        rw [hnone] at hn
        rw [(hn.eq_nil_of_none).1]; rfl
      · rename_i hsome
        cases as with
        | nil => exact absurd hn.nil_inv.1 hsome
        | cons b bs => rw [hr.tail]; simp
    · -- the unlinked entry is freed
      have hb' : b ∉ as := hb'
      obtain rfl : b = p := by simpa [hb'] using hb
      exact Function.update_same _ _ _

theorem pushBack_spec (hr : Repr h l as s) {a : Nat} (ha : h a = none) (e : Option T) :
    ∃ h' l', pushBack h l a e = some (h', l') ∧ Repr h' l' (as ++ [a]) (s ++ [e]) ∧
      Footprint h h' as (as ++ [a]) := by
  have hna := hr.not_mem ha
  have hfresh : ∀ b ∈ as ++ [a], b ∉ as → h b = none := fun b hb hb' =>
    (List.mem_singleton.1 ((List.mem_append.1 hb).resolve_left hb')).symm ▸ ha
  rcases ht : l.tail with _ | t
  · -- an empty list: the new entry is head and tail
    obtain rfl : as = [] := List.getLast?_eq_none_iff.1 (ht ▸ hr.tail).symm
    obtain ⟨hh, rfl⟩ := hr.chain.nil_inv
    have hchain : Seg (h.write a ⟨none, e⟩) (some a) none [a] [e] :=
      .cons (Heap.write_self _ _ _) (.nil _)
    exact ⟨_, ⟨some a, some a⟩, by simp [pushBack, ht], ⟨hchain, List.nodup_singleton a, rfl⟩,
      .of_frame (fun _ => hchain.isSome_of_mem) (by simp)
        (fun b _ hb => Heap.write_ne _ (by simpa using hb)) hfresh⟩
  · -- the old tail `t` gets the new entry as `next`
    obtain ⟨init, rfl⟩ := List.getLast?_eq_some_iff.1 (ht ▸ hr.tail).symm
    obtain ⟨s', te, rfl, hseg, htt, -⟩ := hr.chain.split_last
    have hta : t ≠ a := fun h => hna (h ▸ List.mem_append_right _ (List.mem_singleton_self _))
    have hnd := List.nodup_append.1 hr.nodup
    have hne : ∀ b ∈ init, b ≠ t ∧ b ≠ a := fun b hb =>
      ⟨fun hbt => hnd.2.2 hb (hbt ▸ List.mem_singleton_self t),
        fun hba => hna (hba ▸ List.mem_append_left _ hb)⟩
    have h1t : (h.write a ⟨none, e⟩) t = some te := (Heap.write_ne _ hta).trans htt
    have hchain : Seg ((h.write a ⟨none, e⟩).write t ⟨some a, te.element⟩) l.head none
        (init ++ [t] ++ [a]) (s' ++ [te.element] ++ [e]) :=
      ((hseg.frame fun b hb => (Heap.write_ne _ (hne b hb).1).trans
        (Heap.write_ne _ (hne b hb).2)).snoc rfl (Heap.write_self _ _ _)).snoc rfl
          ((Heap.write_ne _ hta.symm).trans (Heap.write_self _ _ _))
    refine ⟨_, ⟨l.head, some a⟩, by simp [pushBack, ht, h1t],
      ⟨hchain, List.nodup_append.2 ⟨hr.nodup, List.nodup_singleton a,
        List.disjoint_singleton.2 hna⟩, by simp⟩,
      .of_frame (fun _ => hchain.isSome_of_mem)
        (fun b hb hb' => absurd (List.mem_append_left _ hb) hb') (fun b hb hb' => ?_) hfresh⟩
    have hba : b ≠ a := fun h => hb' (h ▸ List.mem_append_right _ (List.mem_singleton_self _))
    have hbt : b ≠ t := fun h => hb (h ▸ List.mem_append_right _ (List.mem_singleton_self _))
    exact (Heap.write_ne _ hbt).trans (Heap.write_ne _ hba)

/-! ## The loops -/

/-- The slot `remove_if` leaves: a non-null element the predicate accepts becomes null. -/
def removeSlot (predicate : T → Bool) : Option T → Option T
  | some x => if predicate x then none else some x
  | none => none

/-- The entry `remove_if` leaves. -/
def removeEntry (predicate : T → Bool) (e : Entry T) : Option (Entry T) :=
  some ⟨e.next, removeSlot predicate e.element⟩

theorem clearLoop_eq {p : Option Nat} (hs : Seg h p none as s) (hnd : as.Nodup) (fuel : Nat) :
    clearLoop fuel h p =
      if as.length ≤ fuel then some (h.mapAt as fun _ => none, as) else none := by
  induction as generalizing h p s fuel with
  | nil =>
    obtain ⟨rfl, -⟩ := hs.nil_inv
    cases fuel <;> simp [clearLoop, Heap.mapAt_nil]
  | cons a as ih =>
    obtain ⟨e, s', rfl, ha, rfl, hn⟩ := hs.cons_inv
    obtain ⟨hna, hnd⟩ := List.nodup_cons.1 hnd
    cases fuel with
    | zero => simp [clearLoop]
    | succ fuel =>
      have hn' : Seg (Function.update h a none) e.next none as s' :=
        hn.frame fun b hb => Function.update_noteq (fun hba : b = a => hna (hba ▸ hb)) _ _
      simp only [clearLoop, ha, Option.some_bind, Heap.free_of_some ha, ih hn' hnd,
        List.length_cons, Nat.add_le_add_iff_right]
      split <;> simp [Heap.mapAt_cons ha hna (fun _ => none)]

theorem forEach_eq {p : Option Nat} (hs : Seg h p none as s) (fuel : Nat) :
    forEach fuel h p = if as.length ≤ fuel then some s.reduceOption else none := by
  induction as generalizing p s fuel with
  | nil =>
    obtain ⟨rfl, rfl⟩ := hs.nil_inv
    cases fuel <;> simp [forEach, List.reduceOption_nil]
  | cons a as ih =>
    obtain ⟨e, s', rfl, ha, rfl, hn⟩ := hs.cons_inv
    cases fuel with
    | zero => simp [forEach]
    | succ fuel =>
      simp only [forEach, ha, Option.some_bind, ih hn, List.length_cons, Nat.add_le_add_iff_right]
      by_cases hc : as.length ≤ fuel <;> rcases e.element with _ | x <;>
        simp [hc, List.reduceOption_cons_of_none, List.reduceOption_cons_of_some]

theorem removeIfBody_eq {predicate : T → Bool} {a : Nat} {e : Entry T} (ha : h a = some e) :
    removeIfBody predicate h a e = Function.update h a (removeEntry predicate e) := by
  have hkeep : h = Function.update h a (some e) := by rw [← ha, Function.update_eq_self]
  rcases e with ⟨next, _ | x⟩
  · exact hkeep
  · by_cases hp : predicate x
    · simp [removeIfBody, removeEntry, removeSlot, hp, Heap.write]
    · simpa [removeIfBody, removeEntry, removeSlot, hp] using hkeep

theorem removeIf_eq {p : Option Nat} (predicate : T → Bool) (hs : Seg h p none as s)
    (hnd : as.Nodup) (fuel : Nat) :
    removeIf predicate fuel h p =
      if as.length ≤ fuel then some (h.mapAt as (removeEntry predicate)) else none := by
  induction as generalizing h p s fuel with
  | nil =>
    obtain ⟨rfl, -⟩ := hs.nil_inv
    cases fuel <;> simp [removeIf, Heap.mapAt_nil]
  | cons a as ih =>
    obtain ⟨e, s', rfl, ha, rfl, hn⟩ := hs.cons_inv
    obtain ⟨hna, hnd⟩ := List.nodup_cons.1 hnd
    cases fuel with
    | zero => simp [removeIf]
    | succ fuel =>
      have hn' : Seg (Function.update h a (removeEntry predicate e)) e.next none as s' :=
        hn.frame fun b hb => Function.update_noteq (fun hba : b = a => hna (hba ▸ hb)) _ _
      simp only [removeIf, ha, Option.some_bind, removeIfBody_eq ha, ih hn' hnd, List.length_cons,
        Nat.add_le_add_iff_right, Heap.mapAt_cons ha hna]

/-- After `remove_if` the chain is the same, with each slot passed through `removeSlot`. -/
theorem Seg.mapAt_remove {p : Option Nat} (predicate : T → Bool) (hs : Seg h p none as s)
    (hnd : as.Nodup) :
    Seg (h.mapAt as (removeEntry predicate)) p none as (s.map (removeSlot predicate)) := by
  induction as generalizing p s with
  | nil => obtain ⟨rfl, rfl⟩ := hs.nil_inv; exact .nil _
  | cons a as ih =>
    obtain ⟨e, s', rfl, ha, rfl, hn⟩ := hs.cons_inv
    obtain ⟨-, hnd⟩ := List.nodup_cons.1 hnd
    have ha' : h.mapAt (a :: as) (removeEntry predicate) a =
        some ⟨e.next, removeSlot predicate e.element⟩ := by
      simp [Heap.mapAt, ha, removeEntry]
    have hn' : Seg (h.mapAt (a :: as) (removeEntry predicate)) e.next none as
        (s'.map (removeSlot predicate)) :=
      (ih hn hnd).frame fun b hb => by simp [Heap.mapAt, hb]
    exact .cons ha' hn'

theorem clear_spec (hr : Repr h l as s) (fuel : Nat) :
    clear fuel h l =
      if as.length ≤ fuel then some (h.mapAt as fun _ => none, empty, as) else none := by
  unfold clear
  rw [clearLoop_eq hr.chain hr.nodup]
  split <;> rfl

theorem clear_footprint (h : Heap T) (as : List Nat) :
    Footprint h (h.mapAt as fun _ => none) as [] :=
  .of_sublist (by simp) (fun b hb _ => by simp [Heap.mapAt, hb])
    (fun b => Heap.mapAt_of_not_mem _) (by simp)

theorem removeIf_spec (predicate : T → Bool) (hr : Repr h l as s) :
    Repr (h.mapAt as (removeEntry predicate)) l as (s.map (removeSlot predicate)) ∧
      Footprint h (h.mapAt as (removeEntry predicate)) as as :=
  have hchain := hr.chain.mapAt_remove predicate hr.nodup
  ⟨⟨hchain, hr.nodup, hr.tail⟩, .of_sublist (fun _ => hchain.isSome_of_mem)
    (fun _ hb hb' => absurd hb hb') (fun _ => Heap.mapAt_of_not_mem _) fun _ => id⟩

end Bionic.Linker
