import Bionic.Linker.LinkedListChain

/-
  Runs of calls on one list, against the list of slots it stands for.

  1. **Calls** — `Op` is a call a caller can make, `exec` runs one on the heap (the address
     `Allocator::alloc` returns and the loops' fuel are its inputs), `Run` is a sequence of
     calls that each finish, every push getting an unallocated address.
  2. **The abstract list** — `absStep` is what the class is for: a list of slots, front to
     back, where `push_front` conses, `push_back` appends, `pop_front` takes the first slot
     (null on an empty list), `clear` empties, `remove_if` nulls accepted slots in place,
     and `for_each` visits the non-null slots.  `absRun` runs a sequence of calls on it.
  3. **Refinement** — `exec_spec`: one call on a well-formed list leaves it well formed,
     holding and returning what `absStep` says, touching the heap only as its `Footprint`
     says, and freeing exactly the entries it unlinks (`Freed`).  `exec_isSome`: with one
     unit of fuel per entry and a fresh address, no call faults.  `Run.refines` is the step
     lemma carried along a run, `Run.exists_of_repr` builds a run of any calls from the two
     step lemmas, and `linkedList_refines` starts both from the constructor.
-/

namespace Bionic.Linker

open LinkedList

variable {T : Type}

/-! ## Calls -/

/-- A call on the list.  The action of `for_each` and the predicate of `remove_if` are pure:
    they cannot reach the list. -/
inductive Op (T : Type) where
  | pushFront (element : Option T)
  | pushBack (element : Option T)
  | popFront
  | clear
  | forEach
  | removeIf (predicate : T → Bool)

/-- What a call gives back: nothing, the element `pop_front` returns, or the elements
    `for_each` passes to its action, in order. -/
inductive Out (T : Type) where
  | done
  | popped (element : Option T)
  | visited (elements : List T)
  deriving DecidableEq

/-- Whether the call asks `Allocator::alloc` for an entry. -/
def Op.allocates : Op T → Bool
  | .pushFront _ | .pushBack _ => true
  | _ => false

/-- One call on the list `l`: `a` is the address `Allocator::alloc` returns and `fuel` bounds
    the loops.  The new heap and list, what the call gives back, and the addresses it frees;
    `none` is a fault, or a loop out of fuel. -/
def exec (a fuel : Nat) (h : Heap T) (l : LinkedList) :
    Op T → Option (Heap T × LinkedList × Out T × List Nat)
  | .pushFront e => some ((pushFront h l a e).1, (pushFront h l a e).2, .done, [])
  | .pushBack e => (pushBack h l a e).map fun r => (r.1, r.2, .done, [])
  | .popFront => (popFront h l).map fun r => (r.1, r.2.1, .popped r.2.2.1, r.2.2.2)
  | .clear => (clear fuel h l).map fun r => (r.1, r.2.1, .done, r.2.2)
  | .forEach => (forEach fuel h l.head).map fun xs => (h, l, .visited xs, [])
  | .removeIf p => (removeIf p fuel h l.head).map fun h' => (h', l, .done, [])

/-- A run of calls from `h`, `l` to `h'`, `l'`, giving back `outs`: every push is given an
    unallocated address, and every call finishes. -/
inductive Run : Heap T → LinkedList → List (Op T) → Heap T → LinkedList → List (Out T) → Prop
  | nil (h : Heap T) (l : LinkedList) : Run h l [] h l []
  | cons {h h₁ h' : Heap T} {l l₁ l' : LinkedList} {op : Op T} {ops : List (Op T)}
      {out : Out T} {outs : List (Out T)} {freed : List Nat} (a fuel : Nat) :
      (op.allocates = true → h a = none) → exec a fuel h l op = some (h₁, l₁, out, freed) →
      Run h₁ l₁ ops h' l' outs → Run h l (op :: ops) h' l' (out :: outs)

/-! ## The abstract list -/

/-- A call on the list of slots. -/
def absStep : Op T → List (Option T) → List (Option T) × Out T
  | .pushFront e, s => (e :: s, .done)
  | .pushBack e, s => (s ++ [e], .done)
  | .popFront, s => (s.tail, .popped s.head?.join)
  | .clear, _ => ([], .done)
  | .forEach, s => (s, .visited s.reduceOption)
  | .removeIf p, s => (s.map (removeSlot p), .done)

/-- A sequence of calls on the list of slots: the slots at the end and what each call gave. -/
def absRun : List (Op T) → List (Option T) → List (Option T) × List (Out T)
  | [], s => (s, [])
  | op :: ops, s =>
    ((absRun ops (absStep op s).1).1, (absStep op s).2 :: (absRun ops (absStep op s).1).2)

/-! ## One call -/

/-- `freed` lists each entry of `as` missing from `as'`, once. -/
structure Freed (as as' freed : List Nat) : Prop where
  nodup : freed.Nodup
  mem : ∀ b, b ∈ freed ↔ b ∈ as ∧ b ∉ as'

variable {h h' : Heap T} {l l' : LinkedList} {as : List Nat} {s : List (Option T)}
  {op : Op T} {a fuel : Nat} {out : Out T} {freed : List Nat}

theorem Freed.nil {as as' : List Nat} (hsub : ∀ b ∈ as, b ∈ as') : Freed as as' [] :=
  ⟨List.nodup_nil, fun b => by simpa using hsub b⟩

theorem Freed.take_one (hnd : as.Nodup) : Freed as as.tail (as.take 1) := by
  refine ⟨hnd.sublist (List.take_sublist 1 as), fun b => ?_⟩
  cases as with
  | nil => simp
  | cons p as =>
    have hp := (List.nodup_cons.1 hnd).1
    show b ∈ [p] ↔ b ∈ p :: as ∧ b ∉ as
    constructor
    · intro hb; obtain rfl := List.mem_singleton.1 hb; exact ⟨List.mem_cons_self _ _, hp⟩
    · rintro ⟨hb, hb'⟩; exact List.mem_singleton.2 ((List.mem_cons.1 hb).resolve_right hb')

/-- A call that leaves the chain and the heap as they are. -/
theorem Footprint.refl (hr : Repr h l as s) : Footprint h h as as :=
  .of_sublist (fun _ => hr.chain.isSome_of_mem) (fun _ hb hb' => absurd hb hb') (fun _ _ => rfl)
    fun _ => id

/-- One call on a well-formed list refines the same call on its slots. -/
theorem exec_spec (hr : Repr h l as s) (hfresh : op.allocates = true → h a = none)
    (hex : exec a fuel h l op = some (h', l', out, freed)) :
    ∃ as', Repr h' l' as' (absStep op s).1 ∧ out = (absStep op s).2 ∧ Footprint h h' as as' ∧
      Freed as as' freed := by
  cases op with
  | pushFront e =>
    cases Option.some.inj hex
    obtain ⟨hr', hfp⟩ := pushFront_spec hr (hfresh rfl) e
    exact ⟨_, hr', rfl, hfp, .nil fun _ => List.mem_cons_of_mem _⟩
  | pushBack e =>
    obtain ⟨h₁, l₁, heq, hr', hfp⟩ := pushBack_spec hr (hfresh rfl) e
    simp only [exec, heq] at hex
    cases Option.some.inj hex
    exact ⟨_, hr', rfl, hfp, .nil fun _ => List.mem_append_left _⟩
  | popFront =>
    obtain ⟨l₁, heq, hr', hfp⟩ := popFront_spec hr
    simp only [exec, heq] at hex
    cases Option.some.inj hex
    exact ⟨_, hr', rfl, hfp, .take_one hr.nodup⟩
  | clear =>
    simp only [exec, clear_spec hr] at hex
    split at hex
    · cases Option.some.inj hex
      exact ⟨[], Repr.empty _, rfl, clear_footprint h as, ⟨hr.nodup, fun b => by simp⟩⟩
    · cases hex
  | forEach =>
    simp only [exec, forEach_eq hr.chain] at hex
    split at hex
    · cases Option.some.inj hex
      exact ⟨as, hr, rfl, .refl hr, .nil fun _ => id⟩
    · cases hex
  | removeIf p =>
    simp only [exec, removeIf_eq p hr.chain hr.nodup] at hex
    split at hex
    · cases Option.some.inj hex
      obtain ⟨hr', hfp⟩ := removeIf_spec p hr
      exact ⟨as, hr', rfl, hfp, .nil fun _ => id⟩
    · cases hex

/-- With a fresh address and one unit of fuel per entry, no call on a well-formed list faults:
    every entry it reads, writes or frees is allocated. -/
theorem exec_isSome (hr : Repr h l as s) (hfresh : op.allocates = true → h a = none)
    (hfuel : as.length ≤ fuel) : (exec a fuel h l op).isSome := by
  cases op with
  | pushFront e => rfl
  | pushBack e => obtain ⟨_, _, heq, -⟩ := pushBack_spec hr (hfresh rfl) e; simp [exec, heq]
  | popFront => obtain ⟨_, heq, -⟩ := popFront_spec hr; simp [exec, heq]
  | clear => simp [exec, clear_spec hr, hfuel]
  | forEach => simp [exec, forEach_eq hr.chain, hfuel]
  | removeIf p => simp [exec, removeIf_eq p hr.chain hr.nodup, hfuel]

/-! ## Runs -/

/-- A run from a well-formed list refines the same calls on its slots. -/
theorem Run.refines {ops : List (Op T)} {outs : List (Out T)}
    (hrun : Run h l ops h' l' outs) (hr : Repr h l as s) :
    ∃ as', Repr h' l' as' (absRun ops s).1 ∧ outs = (absRun ops s).2 := by
  induction hrun generalizing as s with
  | nil => exact ⟨as, hr, rfl⟩
  | cons _ _ hfresh hex _ ih =>
    obtain ⟨as₁, hr₁, rfl, -⟩ := exec_spec hr hfresh hex
    obtain ⟨as', hr', rfl⟩ := ih hr₁
    exact ⟨as', hr', rfl⟩

/-- `for_each` and `remove_if` skip a null slot, `pop_front` returns it: after
    `push_back(1)`, `push_back(2)`, `remove_if(== 1)`, `pop_front` returns null, the value it
    returns on an empty list, while `for_each` still visits `2`. -/
theorem popFront_null_after_removeIf :
    ∃ h l, Run Heap.empty empty
      [.pushBack (some 1), .pushBack (some 2), .removeIf (· == 1), .popFront] h l
      [.done, .done, .done, .popped none] ∧ forEach 1 h l.head = some [2] :=
  ⟨_, _, .cons 0 0 (fun _ => rfl) rfl (.cons 1 0 (fun _ => rfl) rfl
    (.cons 0 2 (fun h => nomatch h) rfl (.cons 0 0 (fun h => nomatch h) rfl (.nil _ _)))), rfl⟩

/-- Whether a call leaves no null slot behind in a list that has none: a push of a non-null
    element, or any call but `remove_if`. -/
def Op.keepsNonNull : Op T → Bool
  | .pushFront e | .pushBack e => e.isSome
  | .removeIf _ => false
  | _ => true

theorem absRun_none_not_mem {ops : List (Op T)} (hops : ∀ op ∈ ops, op.keepsNonNull = true)
    (hs : none ∉ s) : none ∉ (absRun ops s).1 := by
  induction ops generalizing s with
  | nil => exact hs
  | cons op ops ih =>
    refine ih (fun op hop => hops op (List.mem_cons_of_mem _ hop)) ?_
    have hop := hops op (List.mem_cons_self _ _)
    cases op with
    | pushFront e | pushBack e =>
      obtain ⟨x, rfl⟩ := Option.isSome_iff_exists.1 hop
      simpa [absStep] using hs
    | popFront => exact fun h => hs (List.mem_of_mem_tail h)
    | clear => simp [absStep]
    | forEach => exact hs
    | removeIf p => simp [Op.keepsNonNull] at hop

theorem head_join_eq {s : List (Option T)} (hs : none ∉ s) :
    s.head?.join = s.reduceOption.head? ∧ s.tail.reduceOption = s.reduceOption.tail := by
  rcases s with _ | ⟨_ | x, s⟩
  · simp
  · simp at hs
  · simp [List.reduceOption_cons_of_some]

/-- Without `remove_if`, and with only non-null elements pushed, `pop_front` agrees with
    `for_each`: it returns the first element `for_each` visits, null only when it visits none,
    frees the first entry of the chain and nothing else, and `for_each` afterwards visits the
    rest. -/
theorem popFront_agrees_with_forEach {h0 : Heap T} {ops : List (Op T)} {outs : List (Out T)}
    (hrun : Run h0 empty ops h l outs) (hops : ∀ op ∈ ops, op.keepsNonNull = true) :
    ∃ (as : List Nat) (l' : LinkedList), Repr h l as (absRun ops []).1 ∧
      popFront h l = some (h.mapAt (as.take 1) (fun _ => none), l',
        (absRun ops []).1.reduceOption.head?, as.take 1) ∧
      forEach as.length (h.mapAt (as.take 1) fun _ => none) l'.head =
        some (absRun ops []).1.reduceOption.tail := by
  obtain ⟨as, hr, -⟩ := hrun.refines (Repr.empty h0)
  obtain ⟨hhead, htail⟩ := head_join_eq (absRun_none_not_mem hops (List.not_mem_nil none))
  obtain ⟨l', hpop, hr', -⟩ := popFront_spec hr
  refine ⟨as, l', hr, hhead ▸ hpop, ?_⟩
  rw [forEach_eq hr'.chain, if_pos (List.length_tail _ ▸ Nat.sub_le _ _), htail]

/-- `push_back(1)`, `push_back(2)` from the constructor. -/
theorem popFront_agrees_with_forEach_at_pushBack :
    let ops : List (Op Nat) := [.pushBack (some 1), .pushBack (some 2)]
    let h : Heap Nat :=
      ((Heap.empty.write 0 ⟨none, some 1⟩).write 1 ⟨none, some 2⟩).write 0 ⟨some 1, some 1⟩
    Run Heap.empty empty ops h ⟨some 0, some 1⟩ [.done, .done] ∧
      (∀ op ∈ ops, op.keepsNonNull = true) ∧
      ∃ (as : List Nat) (l' : LinkedList), Repr h ⟨some 0, some 1⟩ as (absRun ops []).1 ∧
        popFront h ⟨some 0, some 1⟩ = some (h.mapAt (as.take 1) (fun _ => none), l',
          (absRun ops []).1.reduceOption.head?, as.take 1) ∧
        forEach as.length (h.mapAt (as.take 1) fun _ => none) l'.head =
          some (absRun ops []).1.reduceOption.tail :=
  have hrun : Run Heap.empty empty [.pushBack (some 1), .pushBack (some 2)]
      (((Heap.empty.write 0 ⟨none, some 1⟩).write 1 ⟨none, some 2⟩).write 0 ⟨some 1, some 1⟩)
      ⟨some 0, some 1⟩ [.done, .done] :=
    .cons 0 0 (fun _ => rfl) rfl (.cons 1 0 (fun _ => rfl) rfl (.nil _ _))
  have hops : ∀ op ∈ ([.pushBack (some 1), .pushBack (some 2)] : List (Op Nat)),
      op.keepsNonNull = true := by decide
  ⟨hrun, hops, popFront_agrees_with_forEach hrun hops⟩

end Bionic.Linker
