import Bionic.Linker.LinkedListRun

/-
  Many lists sharing one allocator.

  1. **The system** — `Sys` is the heap and every list of the program, by index; `Sys.step`
     runs one call on one list, and `Reach` is any interleaving of calls on any lists, each
     push getting an address the allocator does not hold.
  2. **The invariant** — `Inv σ as s`: every list is well formed with entries `as i` and slots
     `s i`, the chains of different lists are disjoint, and the allocated entries are exactly
     the entries on some chain.  It holds at `init` and each step keeps it (`Inv.step`): a call
     touches only its own chain (its `Footprint`), and what it links in was unallocated, so no
     other chain can contain it.
  3. **Safety** — `Inv.callsSafe`: from a state with the invariant, every call on every list
     finishes without a fault, so every entry it reads, writes or frees is allocated at that
     moment, and it frees each entry it takes off its chain exactly once and nothing else.
     `shared_lists_safe` is the two together from `init`.
-/

namespace Bionic.Linker

open LinkedList

variable {T : Type}

/-- The heap and every list of the program, by index. -/
structure Sys (T : Type) where
  heap : Heap T
  lists : Nat → LinkedList

namespace Sys

/-- Nothing allocated, every list just constructed. -/
def init : Sys T := ⟨Heap.empty, fun _ => LinkedList.empty⟩

/-- The call `op` on list `i`, with `a` from `Allocator::alloc` and `fuel` for the loops. -/
def step (σ : Sys T) (i a fuel : Nat) (op : Op T) : Option (Sys T × Out T × List Nat) :=
  (exec a fuel σ.heap (σ.lists i) op).map fun r =>
    (⟨r.1, Function.update σ.lists i r.2.1⟩, r.2.2.1, r.2.2.2)

/-- The states an interleaving of calls reaches from `σ`. -/
inductive Reach : Sys T → Sys T → Prop
  | refl (σ : Sys T) : Reach σ σ
  | step {σ σ₁ σ' : Sys T} {out : Out T} {freed : List Nat} (i a fuel : Nat) (op : Op T) :
      (op.allocates = true → σ.heap a = none) → σ.step i a fuel op = some (σ₁, out, freed) →
      Reach σ₁ σ' → Reach σ σ'

/-- Every list is well formed, the chains are disjoint, and the allocated entries are exactly
    the entries on some chain. -/
structure Inv (σ : Sys T) (as : Nat → List Nat) (s : Nat → List (Option T)) : Prop where
  repr : ∀ i, Repr σ.heap (σ.lists i) (as i) (s i)
  disjoint : ∀ i j, i ≠ j → (as i).Disjoint (as j)
  alloc : ∀ b, (σ.heap b).isSome ↔ ∃ i, b ∈ as i

/-- Every call on list `i`, given an unallocated address and one unit of fuel per entry,
    finishes, and frees exactly the entries of the list that it leaves unallocated, once each. -/
def CallsSafe (σ : Sys T) (as : Nat → List Nat) : Prop :=
  ∀ i a fuel (op : Op T), (op.allocates = true → σ.heap a = none) → (as i).length ≤ fuel →
    ∃ σ' out freed, σ.step i a fuel op = some (σ', out, freed) ∧ freed.Nodup ∧
      ∀ b, b ∈ freed ↔ b ∈ as i ∧ σ'.heap b = none

variable {σ σ' : Sys T} {as : Nat → List Nat} {s : Nat → List (Option T)} {op : Op T}
  {i a fuel : Nat} {out : Out T} {freed : List Nat}

theorem Inv.init : Inv (init : Sys T) (fun _ => []) (fun _ => []) :=
  ⟨fun _ => Repr.empty _, fun _ _ _ => List.disjoint_nil_left _, fun _ => by simp [Sys.init, Heap.empty]⟩

theorem step_eq_some (hstep : σ.step i a fuel op = some (σ', out, freed)) :
    ∃ l', exec a fuel σ.heap (σ.lists i) op = some (σ'.heap, l', out, freed) ∧
      σ'.lists = Function.update σ.lists i l' := by
  obtain ⟨⟨h', l', out', freed'⟩, hex, heq⟩ := Option.map_eq_some'.1 hstep
  cases heq
  exact ⟨l', hex, rfl⟩

/-- An entry on another list's chain is neither on the chain a call starts from nor on the
    one it leaves. -/
theorem Inv.not_mem_of_other (hinv : Inv σ as s) {h' : Heap T} {as' : List Nat}
    (hfp : Footprint σ.heap h' (as i) as') {j b : Nat} (hji : j ≠ i) (hb : b ∈ as j) :
    b ∉ as i ∧ b ∉ as' :=
  have hbi : b ∉ as i := fun hbi => hinv.disjoint j i hji hb hbi
  ⟨hbi, fun hb' => by simpa [hfp.fresh b hb' hbi] using (hinv.alloc b).2 ⟨j, hb⟩⟩

/-- One call keeps the invariant, with the chain and slots of the list it ran on replaced. -/
theorem Inv.step (hinv : Inv σ as s) (hfresh : op.allocates = true → σ.heap a = none)
    (hstep : σ.step i a fuel op = some (σ', out, freed)) :
    ∃ as', Inv σ' (Function.update as i as') (Function.update s i (absStep op (s i)).1) ∧
      Footprint σ.heap σ'.heap (as i) as' ∧ Freed (as i) as' freed := by
  obtain ⟨l', hex, hlists⟩ := step_eq_some hstep
  obtain ⟨as', hr', -, hfp, hfreed⟩ := exec_spec (hinv.repr i) hfresh hex
  have hother := fun {j} (hji : j ≠ i) {b} (hb : b ∈ as j) => hinv.not_mem_of_other hfp hji hb
  refine ⟨as', ⟨fun j => ?_, fun j k hjk => ?_, fun b => ?_⟩, hfp, hfreed⟩
  · -- every list is still well formed
    rw [hlists]
    by_cases hji : j = i
    · subst hji; simpa using hr'
    · have hr := hinv.repr j
      simp only [Function.update_noteq hji]
      exact ⟨hr.chain.frame fun b hb => hfp.frame b (hother hji hb).1 (hother hji hb).2,
        hr.nodup, hr.tail⟩
  · -- the chains stay disjoint
    by_cases hji : j = i
    · subst hji
      simp only [Function.update_same, Function.update_noteq (Ne.symm hjk)]
      exact fun b hb hbk => (hother (Ne.symm hjk) hbk).2 hb
    by_cases hki : k = i
    · subst hki
      simp only [Function.update_same, Function.update_noteq hjk]
      exact fun b hbj hb => (hother hjk hbj).2 hb
    simp only [Function.update_noteq hji, Function.update_noteq hki]
    exact hinv.disjoint j k hjk
  · -- the allocated entries are the entries on the chains
    rw [hfp.alloc, hinv.alloc]
    constructor
    · rintro (hb | ⟨hbi, j, hbj⟩)
      · exact ⟨i, by simpa using hb⟩
      · have hji : j ≠ i := fun h => hbi (h ▸ hbj)
        exact ⟨j, by simpa [Function.update_noteq hji] using hbj⟩
    · rintro ⟨j, hbj⟩
      by_cases hji : j = i
      · subst hji; exact .inl (by simpa using hbj)
      · rw [Function.update_noteq hji] at hbj
        exact .inr ⟨(hother hji hbj).1, j, hbj⟩

/-- The invariant holds along every interleaving. -/
theorem Reach.inv (hreach : Reach σ σ') (hinv : Inv σ as s) : ∃ as' s', Inv σ' as' s' := by
  induction hreach generalizing as s with
  | refl => exact ⟨as, s, hinv⟩
  | step _ _ _ _ hfresh hstep _ ih =>
    obtain ⟨_, hinv₁, -⟩ := hinv.step hfresh hstep
    exact ih hinv₁

/-- From a state with the invariant, no call faults, and each frees what it unlinks. -/
theorem Inv.callsSafe (hinv : Inv σ as s) : CallsSafe σ as := by
  intro i a fuel op hfresh hfuel
  obtain ⟨⟨h', l', out, freed⟩, hex⟩ := Option.isSome_iff_exists.1
    (exec_isSome (hinv.repr i) hfresh hfuel)
  obtain ⟨as', -, -, hfp, hfreed⟩ := exec_spec (hinv.repr i) hfresh hex
  refine ⟨⟨h', Function.update σ.lists i l'⟩, out, freed, by simp [Sys.step, hex], hfreed.nodup,
    fun b => ?_⟩
  rw [hfreed.mem]
  refine and_congr_right fun hb => ?_
  rw [← Option.not_isSome_iff_eq_none, hfp.alloc]
  simp [hb]

end Sys

open Sys in
/-- Any number of lists sharing one allocator, under any interleaving of their calls: the
    chains stay disjoint, the allocated entries are exactly their union, and from every state
    reached every call on every list finishes without touching an unallocated entry and frees
    exactly the entries it unlinks, once each. -/
theorem shared_lists_safe {σ : Sys T} (hreach : Reach init σ) :
    ∃ as s, Inv σ as s ∧ CallsSafe σ as := by
  obtain ⟨as, s, hinv⟩ := hreach.inv Inv.init
  exact ⟨as, s, hinv, hinv.callsSafe⟩

open Sys in
/-- Two lists, one `push_back` on each. -/
theorem shared_lists_safe_two_lists :
    let σ : Sys Nat := ⟨(Heap.empty.write 0 ⟨none, some 1⟩).write 1 ⟨none, some 2⟩,
      Function.update (Function.update (fun _ => empty) 0 ⟨some 0, some 0⟩) 1 ⟨some 1, some 1⟩⟩
    Reach init σ ∧ ∃ as s, Inv σ as s ∧ CallsSafe σ as :=
  have hreach : Reach init (⟨(Heap.empty.write 0 ⟨none, some 1⟩).write 1 ⟨none, some 2⟩,
      Function.update (Function.update (fun _ => empty) 0 ⟨some 0, some 0⟩) 1
        ⟨some 1, some 1⟩⟩ : Sys Nat) :=
    .step 0 0 0 (.pushBack (some 1)) (fun _ => rfl) rfl
      (.step 1 1 0 (.pushBack (some 2)) (fun _ => rfl) rfl (.refl _))
  ⟨hreach, shared_lists_safe hreach⟩

end Bionic.Linker
