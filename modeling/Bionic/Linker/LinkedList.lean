import Mathlib.Logic.Function.Basic

/-
  `LinkedList<T, Allocator>` of `linker/linked_list.h`, as state passing over a heap.

  1. **Heap** — the entries the allocator has handed out and not taken back, by address
     (`Heap`).  `Allocator::alloc` is not part of this source; every operation that calls it
     takes the address it returned as an argument `a`, and the runs in
     `Bionic.Linker.LinkedListRun` ask that `a` be unallocated.  A read, write or `free` of an
     address that is not allocated is a fault: the operation returns `none`.
  2. **The list** — `head_` and `tail_` (`LinkedList`); a null pointer is `none`, and so is a
     null element.
  3. **The operations** — one function each, statement for statement.  The loops of `clear`,
     `for_each` and `remove_if` follow `next` from `head_`; nothing in the code bounds them, so
     each takes a `fuel` bound and returns `none` when it runs out.  `for_each` returns the
     elements it passes to `action`, in order; the action and the predicate of `remove_if`
     are pure functions, so they cannot touch the list.  `clear` and `pop_front` also return
     the addresses they pass to `Allocator::free`.
-/

namespace Bionic.Linker

/-- `LinkedListEntry<T>`. -/
structure Entry (T : Type) where
  next : Option Nat
  element : Option T

/-- The allocated entries. -/
def Heap (T : Type) := Nat → Option (Entry T)

namespace Heap

variable {T : Type}

/-- No entry allocated. -/
def empty : Heap T := fun _ => none

/-- A store to an entry. -/
def write (h : Heap T) (a : Nat) (e : Entry T) : Heap T := Function.update h a (some e)

/-- `Allocator::free`: a fault unless `a` is allocated. -/
def free (h : Heap T) (a : Nat) : Option (Heap T) :=
  (h a).map fun _ => Function.update h a none

@[simp] theorem write_self (h : Heap T) (a : Nat) (e : Entry T) : h.write a e a = some e :=
  Function.update_same _ _ _

@[simp] theorem write_ne {h : Heap T} {a b : Nat} (e : Entry T) (hb : b ≠ a) :
    h.write a e b = h b :=
  Function.update_noteq hb _ _

theorem free_of_some {h : Heap T} {a : Nat} {e : Entry T} (ha : h a = some e) :
    h.free a = some (Function.update h a none) := by
  rw [free, ha, Option.map_some']

end Heap

/-- `head_` and `tail_`. -/
structure LinkedList where
  head : Option Nat
  tail : Option Nat

namespace LinkedList

variable {T : Type}

/-- The constructor: both pointers null. -/
def empty : LinkedList := ⟨none, none⟩

/-- `push_front`: the new entry points at the old head; an empty list gets it as tail too. -/
def pushFront (h : Heap T) (l : LinkedList) (a : Nat) (element : Option T) : Heap T × LinkedList :=
  (h.write a ⟨l.head, element⟩, ⟨some a, if l.tail = none then some a else l.tail⟩)

/-- `push_back`: the new entry ends the list; the old tail's `next` is set to it. -/
def pushBack (h : Heap T) (l : LinkedList) (a : Nat) (element : Option T) :
    Option (Heap T × LinkedList) :=
  let h := h.write a ⟨none, element⟩
  match l.tail with
  | none => some (h, ⟨some a, some a⟩)
  | some t => (h t).map fun te => (h.write t ⟨some a, te.element⟩, ⟨l.head, some a⟩)

/-- `pop_front`: the first entry's element (`none` on an empty list), the entry freed. -/
def popFront (h : Heap T) (l : LinkedList) : Option (Heap T × LinkedList × Option T × List Nat) :=
  match l.head with
  | none => some (h, l, none, [])
  | some p => (h p).bind fun pe => (h.free p).map fun h' =>
      (h', ⟨pe.next, if pe.next = none then none else l.tail⟩, pe.element, [p])

/-- The loop of `clear`: read `next`, then free the entry; the freed addresses in order. -/
def clearLoop : Nat → Heap T → Option Nat → Option (Heap T × List Nat)
  | _, h, none => some (h, [])
  | 0, _, some _ => none
  | fuel + 1, h, some p => (h p).bind fun pe => (h.free p).bind fun h' =>
      (clearLoop fuel h' pe.next).map fun r => (r.1, p :: r.2)

/-- `clear`: free every entry, then both pointers null. -/
def clear (fuel : Nat) (h : Heap T) (l : LinkedList) : Option (Heap T × LinkedList × List Nat) :=
  (clearLoop fuel h l.head).map fun r => (r.1, empty, r.2)

/-- `for_each`: the elements passed to `action`, skipping null ones. -/
def forEach : Nat → Heap T → Option Nat → Option (List T)
  | _, _, none => some []
  | 0, _, some _ => none
  | fuel + 1, h, some p => (h p).bind fun pe =>
      (forEach fuel h pe.next).map fun rest =>
        match pe.element with
        | some x => x :: rest
        | none => rest

/-- The body of `remove_if`'s loop at the entry `p`, which holds `pe`. -/
def removeIfBody (predicate : T → Bool) (h : Heap T) (p : Nat) (pe : Entry T) : Heap T :=
  match pe.element with
  | some x => if predicate x then h.write p ⟨pe.next, none⟩ else h
  | none => h

/-- `remove_if`: null out every non-null element the predicate accepts.  The body only writes
    the element, so `e = e->next` reads the `next` it read before. -/
def removeIf (predicate : T → Bool) : Nat → Heap T → Option Nat → Option (Heap T)
  | _, h, none => some h
  | 0, _, some _ => none
  | fuel + 1, h, some p => (h p).bind fun pe =>
      removeIf predicate fuel (removeIfBody predicate h p pe) pe.next

end LinkedList

end Bionic.Linker
