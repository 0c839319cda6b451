import Mathlib.Algebra.Group.Action.Defs
import Mathlib.Algebra.GroupWithZero.Nat
import Mathlib.Algebra.Order.BigOperators.Group.List
import Mathlib.Algebra.Order.Group.Nat
import Horn.Proofs.Search.Pending
import Horn.Proofs.Search.Waiting

/-!
Searches on programs without recursion come to their end.

If the predicates have a rank that falls from the head of every clause to the goals of its body, every
expansion makes a solution lighter: `weight_lt_of_mem_expand`. The children of an expansion weigh less
than what they replace even taken together, on a scale that grows fast enough, so every pass takes
something off the queue: `Listing.load_advance_lt`. Neither the memo nor the built-ins matter.
-/

set_option autoImplicit false
set_option relaxedAutoImplicit false

namespace Horn.Search

/-- Several powers with smaller exponents do not add up to one with a larger exponent, if they are
fewer than the base. -/
theorem sum_pow_lt {base exponent : Nat} {exponents : List Nat} (few : exponents.length ≤ base)
    (smaller : ∀ k ∈ exponents, k < exponent) :
    (exponents.map ((base + 1) ^ ·)).sum < (base + 1) ^ exponent := by
  cases exponent with
  | zero =>
    obtain rfl : exponents = [] := List.eq_nil_iff_forall_not_mem.2 fun k hk =>
      Nat.not_lt_zero k (smaller k hk)
    simp
  | succ exponent =>
    have hsum : (exponents.map ((base + 1) ^ ·)).sum ≤
        (exponents.map ((base + 1) ^ ·)).length • (base + 1) ^ exponent := by
      refine List.sum_le_card_nsmul _ _ fun power hpower => ?_
      obtain ⟨k, hk, rfl⟩ := List.mem_map.1 hpower
      exact Nat.pow_le_pow_right (Nat.succ_pos base) (Nat.le_of_lt_succ (smaller k hk))
    rw [List.length_map, smul_eq_mul] at hsum
    have hcount := Nat.mul_le_mul_right ((base + 1) ^ exponent) few
    have hpos : 0 < (base + 1) ^ exponent := Nat.pow_pos (Nat.succ_pos base)
    rw [Nat.pow_succ, Nat.mul_succ, Nat.mul_comm _ base]
    omega

/-- The predicates have a rank that falls from a goal to the goals that a clause puts in its place,
and no clause puts more than `size` goals there. -/
structure Ranked (s : Setting) (rank : String → Nat) (size : Nat) : Prop where
  falls : ∀ key, ∀ c ∈ s.program.candidates key, ∀ g ∈ c.body, rank g.key < rank key
  short : ∀ key, ∀ c ∈ s.program.candidates key, c.body.length ≤ size

/-- The ranks of the open goals of a solution. -/
def ranks (rank : String → Nat) (solution : Solution) : List Nat :=
  (pending solution).map fun g => rank g.fact.key

/-- The weight of a solution: a goal weighs more than all the goals that come in its place. -/
def weight (rank : String → Nat) (size : Nat) (solution : Solution) : Nat :=
  ((ranks rank solution).map ((size + 1) ^ ·)).sum

variable {s : Setting} {rank : String → Nat} {size : Nat}

/-- The ranks of the goals that come in the place of a goal are smaller, and there are few. -/
private theorem Ranked.resolvent (ranked : Ranked s rank size) {l : Ledger} {next : Nat}
    {goal head : Fact} {body : List Fact} (h : Resolvent s l next goal head body) :
    (∀ f ∈ body, rank f.key < rank goal.key) ∧ body.length ≤ size := by
  cases h with
  | value _ _ _ _ => simp
  | recorded _ _ => simp
  | @renamed c start _ candidate _ _ =>
    constructor
    · intro f hf
      obtain ⟨f', hf', rfl⟩ := List.mem_map.1 hf
      simpa [Fact.key] using ranked.falls _ c candidate f' hf'
    · exact Nat.le_trans (Nat.le_of_eq (List.length_map _)) (ranked.short _ c candidate)

/-- The children of a solution weigh less than the solution. -/
theorem weight_lt_of_mem_expand (ranked : Ranked s rank size) {l : Ledger} {solution child : Solution}
    (h : child ∈ (expand s l solution).1) : weight rank size child < weight rank size solution := by
  obtain ⟨before, g, behind, head, body, b, rfl, hopen, hresolvent, -, rfl⟩ := exists_of_mem_expand h
  obtain ⟨hsmaller, hfew⟩ := ranked.resolvent hresolvent
  have hranks : ranks rank (compact l.memo.isEnabled
      (discharge b (body.map b.substitute) before.length (before ++ g :: behind))).1 =
        ranks rank before ++ (body.map (rank ·.key) ++ ranks rank behind) := by
    rw [ranks, (compact_fst _ _).2.2, pending_discharge]
    simp [ranks, Goal.pending, Fact.key, Function.comp_def]
  have hlighter : ((body.map (rank ·.key)).map ((size + 1) ^ ·)).sum < (size + 1) ^ rank g.fact.key :=
    sum_pow_lt (by simpa using hfew) (by simpa using hsmaller)
  rw [weight, weight, hranks, ranks, ranks, ranks, pending_append_cons before behind hopen]
  simp only [List.map_append, List.map_cons, List.sum_append, List.sum_cons]
  omega

namespace Listing

/-- The weight of all that waits, on a scale on which a solution is heavier than its children
together. -/
def load (rank : String → Nat) (size width : Nat) (p : Listing) : Nat :=
  ((p.waiting.map (weight rank size)).map ((width + 1) ^ ·)).sum

/-- Every pass takes something off the queue. -/
theorem load_advance_lt (ranked : Ranked s rank size) {width : Nat}
    (few : ∀ key, (s.program.candidates key).length < width) {p : Listing} {stopEarly : Bool}
    {solution : Solution} {behind : Queue (Nat × Solution)}
    (next : p.base.next? stopEarly = some (solution, behind)) :
    (p.advance s solution behind).load rank size width < p.load rank size width := by
  let l := p.base.ledger.count fun c => { c with iterations := c.iterations + 1 }
  obtain ⟨new, hnew, hsublist⟩ : ∃ new, (p.advance s solution behind).waiting =
      behind.toList.map Prod.snd ++ new ∧ new.Sublist (expand s l solution).1 :=
    exists_waiting_foldl _ _
  have hlighter : ((new.map (weight rank size)).map ((width + 1) ^ ·)).sum <
      (width + 1) ^ weight rank size solution := by
    refine sum_pow_lt ?_ fun k hk => ?_
    · rw [List.length_map]
      exact Nat.le_trans hsublist.length_le (length_expand_le s l solution few)
    · obtain ⟨child, hchild, rfl⟩ := List.mem_map.1 hk
      exact weight_lt_of_mem_expand ranked (hsublist.subset hchild)
  rw [load, load, hnew, waiting_of_next? next]
  simp only [List.map_append, List.map_cons, List.sum_append, List.sum_cons]
  omega

/-- A run without a deadline comes to its end. -/
theorem run_ends (ranked : Ranked s rank size) {width : Nat}
    (few : ∀ key, (s.program.candidates key).length < width) {p : Listing} {stopEarly : Bool}
    {passes : Nat} (enough : p.load rank size width < passes) :
    (run s stopEarly none passes p).1 = true := by
  induction passes generalizing p with
  | zero => omega
  | succ passes ih =>
    cases hnext : p.base.next? stopEarly with
    | none =>
      rw [run, if_neg (by simp [Progress.isLate]), hnext]
    | some entry =>
      obtain ⟨solution, behind⟩ := entry
      rw [run_succ_of_next rfl hnext]
      have := load_advance_lt ranked few hnext
      exact ih (by omega)

end Listing

end Horn.Search
