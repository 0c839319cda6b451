import Horn.Proofs.Distinct
import Horn.Proofs.Search.Finiteness
import Horn.Proofs.Search.Reach

/-!
A run that comes to its end has made what can be reached.

Every pass of a run expands something reached into what is reached as well: `Listing.Exploring`. And
whatever was made is settled, so that its children are made too, or looks like something that waits:
`Listing.Settling`. At the end nothing waits any more, so up to the names of variables a run has made
exactly what can be reached, and it has noted exactly the undefined predicates that can be met:
`Listing.Saturating.saturated_of_ended`. How long a run goes on depends on nothing else: `Listing.Saturated.ends`.
-/

set_option autoImplicit false
set_option relaxedAutoImplicit false

namespace Horn.Search

variable {s s' : Setting} {L : Literal → Prop} {query : Solution}

theorem tried_eq_nil {a : Solution} (closed : hasPending a = false) (l : Ledger) :
    tried s l a = [] := by
  have hresolved : ∀ g ∈ a, g.resolved = true := by
    simpa [hasPending] using closed
  have hchoose : choose s a = none := by
    have hnone (p : Goal → Bool) : a.findIdx? (fun g => !g.resolved && p g) = none := by
      rw [List.findIdx?_eq_none_iff]
      intro g hg
      simp [hresolved g hg]
    simp only [choose, Bool.and_assoc, hnone, Option.map_none]
  rw [tried, hchoose]

namespace Listing

variable {stopEarly : Bool} {p q : Listing} {solution : Solution}
  {behind : Queue (Nat × Solution)}

/-- The undefined predicates noted so far. -/
def undefined (p : Listing) : List String :=
  p.base.ledger.stats.undefined

theorem undefined_advance (s : Setting) (p : Listing) (solution : Solution)
    (behind : Queue (Nat × Solution)) :
    (p.advance s solution behind).undefined = (expand s p.counted solution).2.stats.undefined := by
  rw [undefined, advance_eq]
  obtain ⟨pruned, hledger⟩ := exists_ledger_foldl (expand s p.counted solution).1
    (p.popped s solution behind)
  rw [hledger]
  rfl

/-! ### What is made is reached -/

/-- Without memo, a run has made only what can be reached, and noted only what can be met. -/
structure Exploring (s : Setting) (query : Solution) (p : Listing) : Prop where
  unmemoized : p.base.ledger.memo.enabled = []
  below : ∀ a ∈ p.waiting, ∀ g ∈ a, ∀ name ∈ g.fact.varNames, name.Below p.base.ledger.nextVar
  standing : ∀ a ∈ p.standing, a ∈ p.made
  made : ∀ a ∈ p.made, Reached s query a
  undefined : ∀ key ∈ p.undefined, Meets s query key

theorem Exploring.advance (h : Exploring s query p)
    (next : p.base.next? stopEarly = some (solution, behind)) :
    Exploring s query (p.advance s solution behind) := by
  have hwaiting := waiting_of_next? next
  have hmem : solution ∈ p.waiting := by simp [hwaiting]
  have hreached : Reached s query solution :=
    h.made solution (h.standing solution (List.mem_append_left _ hmem))
  have hfresh : p.counted.IsFreshFor solution := ⟨h.unmemoized, h.below solution hmem⟩
  refine ⟨(enabled_advance s p solution behind).trans h.unmemoized, ?_, ?_, ?_, ?_⟩
  · rw [nextVar_advance]
    refine forall_waiting_advance hwaiting (fun a ha g hg name hname => ?_)
      fun a ha => below_of_mem_expand hfresh.below ha
    exact (h.below a ha g hg name hname).mono (nextVar_le_expand s p.counted solution)
  · intro a ha
    rw [advance_eq] at ha ⊢
    refine mem_made_foldl.2 ((mem_standing_foldl ha).imp_right fun hold => h.standing a ?_)
    rw [Listing.standing, hwaiting]
    rcases List.mem_append.1 hold with hold | hold
    · exact List.mem_append_left _ (List.mem_cons_of_mem _ hold)
    · exact List.mem_append_right _ hold
  · intro a ha
    rw [advance_eq] at ha
    rcases mem_made_foldl.1 ha with hchild | hold
    · exact .child hreached hfresh hchild
    · exact h.made a hold
  · intro key hkey
    rw [undefined_advance] at hkey
    rcases mem_undefined_expand.1 hkey with hold | hnew
    · exact h.undefined key hold
    · exact ⟨_, solution, hreached, hfresh, hnew⟩

/-! ### What is made is settled -/

/-- What looks like a solution has children that look like some that are known, and meets only
undefined predicates that are known. -/
def IsSettled (s : Setting) (L : Literal → Prop) (known : List Solution) (keys : List String)
    (solution : Solution) : Prop :=
  ∀ (l : Ledger) (a : Solution), l.memo.enabled = [] → Steady s L l.nextVar a →
    looksLike a solution = true →
      (∀ c ∈ (expand s l a).1, ∃ d ∈ known, looksLike c d = true) ∧
        ∀ key, Attempt.undefined key ∈ tried s l a → key ∈ keys

theorem IsSettled.mono {known known' : List Solution} {keys keys' : List String}
    (h : IsSettled s L known keys solution) (more : ∀ a ∈ known, a ∈ known')
    (more' : ∀ key ∈ keys, key ∈ keys') : IsSettled s L known' keys' solution := by
  intro l a unmemoized steady like
  obtain ⟨hchildren, hkeys⟩ := h l a unmemoized steady like
  refine ⟨fun c hc => ?_, fun key hkey => more' key (hkeys key hkey)⟩
  obtain ⟨d, hd, hlike⟩ := hchildren c hc
  exact ⟨d, more d hd, hlike⟩

theorem IsSettled.of_looksLike {known : List Solution} {keys : List String} {other : Solution}
    (h : IsSettled s L known keys other) (like : looksLike solution other = true) :
    IsSettled s L known keys solution :=
  fun l a unmemoized steady like' => h l a unmemoized steady (looksLike_trans like' like)

theorem isSettled_of_closed (closed : hasPending solution = false) (known : List Solution)
    (keys : List String) : IsSettled s L known keys solution := by
  intro l a _ _ like
  have hclosed : hasPending a = false := (hasPending_eq_of_looksLike like).trans closed
  have hnone : tried s l a = [] := tried_eq_nil hclosed l
  constructor
  · intro c hc
    obtain ⟨x, hx, -⟩ := mem_expand.1 hc
    simp [hnone] at hx
  · simp [hnone]

/-- What a solution is expanded into settles it. -/
theorem isSettled_of_expand {l : Ledger} (unmemoized : l.memo.enabled = [])
    (steady : Steady s L l.nextVar solution) {known : List Solution} {keys : List String}
    (children : ∀ c ∈ (expand s l solution).1, c ∈ known)
    (undefined : ∀ key, Attempt.undefined key ∈ tried s l solution → key ∈ keys) :
    IsSettled s L known keys solution := by
  intro l' a unmemoized' steady' like
  obtain ⟨hchildren, hkeys⟩ := expand_alike (.refl s) unmemoized' unmemoized steady' steady like
  refine ⟨fun c hc => ?_, fun key hkey => undefined key (hkeys key hkey)⟩
  obtain ⟨d, hd, hlike⟩ := hchildren c hc
  exact ⟨d, children d hd, hlike⟩

/-- What was made looks like something that waits, or it is settled by what is known. -/
def Settling (s : Setting) (L : Literal → Prop) (known : List Solution) (keys : List String)
    (p : Listing) : Prop :=
  ∀ a ∈ p.made, IsSettled s L known keys a ∨ ∃ b ∈ p.waiting, looksLike a b = true

theorem Settling.takeIn {known : List Solution} {keys : List String} (h : Settling s L known keys p)
    (child : Solution) : Settling s L known keys (p.takeIn child) := by
  have hold (b : Solution) (hb : b ∈ p.waiting) : b ∈ (p.takeIn child).waiting := by
    rcases p.takeIn_cases child with ⟨-, hwaiting, -⟩ | ⟨-, hwaiting, -⟩ | ⟨-, hwaiting, -⟩ <;>
      simp [hwaiting, hb]
  have hmade (a : Solution) (ha : a ∈ p.made) :
      IsSettled s L known keys a ∨ ∃ b ∈ (p.takeIn child).waiting, looksLike a b = true :=
    (h a ha).imp_right fun ⟨b, hb, hlike⟩ => ⟨b, hold b hb, hlike⟩
  rw [Settling, made_takeIn, List.forall_mem_cons]
  refine ⟨?_, hmade⟩
  rcases p.takeIn_cases child with ⟨hknown, -, -⟩ | ⟨-, hwaiting, -⟩ | ⟨hclosed, -, -⟩
  · obtain ⟨a, ha, hlike⟩ := List.any_eq_true.1 hknown
    have hlike' : looksLike child a = true := looksLike_symm hlike
    rcases hmade a ha with hsettled | ⟨b, hb, hlike''⟩
    · exact .inl (hsettled.of_looksLike hlike')
    · exact .inr ⟨b, hb, looksLike_trans hlike' hlike''⟩
  · exact .inr ⟨child, by simp [hwaiting], looksLike_self child⟩
  · exact .inl (isSettled_of_closed hclosed known keys)

theorem Settling.advance (h : Settling s L p.made p.undefined p)
    (unmemoized : p.base.ledger.memo.enabled = [])
    (steady : Steady s L p.base.ledger.nextVar solution)
    (next : p.base.next? stopEarly = some (solution, behind)) :
    Settling s L (p.advance s solution behind).made (p.advance s solution behind).undefined
      (p.advance s solution behind) := by
  have hmade (a : Solution) : a ∈ (p.advance s solution behind).made ↔
      a ∈ (expand s p.counted solution).1 ∨ a ∈ p.made := by
    rw [advance_eq]
    exact mem_made_foldl
  have hundefined (key : String) : key ∈ (p.advance s solution behind).undefined ↔
      key ∈ p.undefined ∨ Attempt.undefined key ∈ tried s p.counted solution := by
    rw [undefined_advance]
    exact mem_undefined_expand
  have hexpanded : IsSettled s L (p.advance s solution behind).made
      (p.advance s solution behind).undefined solution :=
    isSettled_of_expand (l := p.counted) unmemoized steady (fun c hc => (hmade c).2 (.inl hc))
      fun key hkey => (hundefined key).2 (.inr hkey)
  -- Settled is meant by what is known after the pass, also while children are still taken in.
  refine advance_induction (P := Settling s L _ _) ?_ fun q child _ hq => hq.takeIn child
  intro a ha
  rcases h a ha with hsettled | ⟨b, hb, hlike⟩
  · exact .inl (hsettled.mono (fun a ha => (hmade a).2 (.inr ha))
      fun key hkey => (hundefined key).2 (.inl hkey))
  · rw [waiting_of_next? next] at hb
    rcases List.mem_cons.1 hb with rfl | hb
    · exact .inl (hexpanded.of_looksLike hlike)
    · exact .inr ⟨b, hb, hlike⟩

/-- What was made without open goals looks like something finished, and that has no open goals. -/
structure Finishing (p : Listing) : Prop where
  made : ∀ a ∈ p.made, hasPending a = false → ∃ b ∈ p.base.finished, looksLike a b = true
  closed : ∀ a ∈ p.base.finished, hasPending a = false

theorem Finishing.takeIn (h : Finishing p) (child : Solution) : Finishing (p.takeIn child) := by
  have hold (a : Solution) (ha : a ∈ p.made) (hclosed : hasPending a = false) :
      ∃ b ∈ (p.takeIn child).base.finished, looksLike a b = true := by
    obtain ⟨b, hb, hlike⟩ := h.made a ha hclosed
    have hmem : b ∈ ([child].foldl Listing.takeIn p).base.finished := mem_finished_foldl hb
    exact ⟨b, hmem, hlike⟩
  constructor
  · rw [made_takeIn, List.forall_mem_cons]
    refine ⟨fun hclosed => ?_, hold⟩
    rcases p.takeIn_cases child with ⟨hknown, -, -⟩ | ⟨hopen, -, -⟩ | ⟨-, -, hfinished⟩
    · obtain ⟨a, ha, hlike⟩ := List.any_eq_true.1 hknown
      obtain ⟨b, hb, hlike'⟩ := hold a ha ((hasPending_eq_of_looksLike hlike).trans hclosed)
      exact ⟨b, hb, looksLike_trans (looksLike_symm hlike) hlike'⟩
    · simp [hopen] at hclosed
    · exact ⟨child, by simp [hfinished], looksLike_self child⟩
  · rcases p.takeIn_cases child with ⟨-, -, hfinished⟩ | ⟨-, -, hfinished⟩ | ⟨hclosed, -, hfinished⟩
    · exact hfinished ▸ h.closed
    · exact hfinished ▸ h.closed
    · rw [hfinished]
      exact List.forall_mem_cons.2 ⟨hclosed, h.closed⟩

theorem Finishing.advance (h : Finishing p) (s : Setting) (solution : Solution)
    (behind : Queue (Nat × Solution)) : Finishing (p.advance s solution behind) :=
  advance_induction ⟨h.made, h.closed⟩ fun _ child _ hq => hq.takeIn child

/-! ### Saturation -/

/-- Up to the names of variables, a listing has made what can be reached and finished what of it has no
open goals, and it has noted the undefined predicates that can be met. -/
structure Saturated (s : Setting) (query : Solution) (p : Listing) : Prop where
  reached : ∀ a ∈ p.made, Reached s query a
  made : ∀ a, Reached s query a → ∃ b ∈ p.made, looksLike a b = true
  finished : ∀ a ∈ p.base.finished, Reached s query a ∧ hasPending a = false
  answered : ∀ a, Reached s query a → hasPending a = false →
    ∃ b ∈ p.base.finished, looksLike a b = true
  undefined : ∀ key, key ∈ p.undefined ↔ Meets s query key

/-- A run on its way to saturation. -/
structure Saturating (s : Setting) (L : Literal → Prop) (query : Solution) (p : Listing) : Prop where
  exploring : Exploring s query p
  settling : Settling s L p.made p.undefined p
  finishing : Finishing p
  query : query ∈ p.made

theorem Saturating.advance (calls : CallsSteady s L) (steady : Steady s L 0 query)
    (h : Saturating s L query p) (next : p.base.next? stopEarly = some (solution, behind)) :
    Saturating s L query (p.advance s solution behind) := by
  have hmem : solution ∈ p.waiting := by simp [waiting_of_next? next]
  have hreached : Reached s query solution :=
    h.exploring.made solution (h.exploring.standing solution (List.mem_append_left _ hmem))
  obtain ⟨_, hsteady⟩ := hreached.exists_steady calls steady
  refine ⟨h.exploring.advance next, ?_, h.finishing.advance s solution behind, ?_⟩
  · exact h.settling.advance h.exploring.unmemoized
      { hsteady with below := h.exploring.below solution hmem } next
  · rw [advance_eq]
    exact mem_made_foldl.2 (.inr h.query)

theorem Saturating.saturated (calls : CallsSteady s L) (steady : Steady s L 0 query)
    (h : Saturating s L query p) (last : p.waiting = []) : Saturated s query p := by
  have hsettled (a : Solution) (ha : a ∈ p.made) : IsSettled s L p.made p.undefined a :=
    (h.settling a ha).resolve_right (by simp [last])
  have hmade (a : Solution) (reached : Reached s query a) : ∃ b ∈ p.made, looksLike a b = true := by
    induction reached with
    | query => exact ⟨query, h.query, looksLike_self query⟩
    | @child l a c reached fresh mem ih =>
      obtain ⟨b, hb, hlike⟩ := ih
      obtain ⟨_, ha⟩ := reached.exists_steady calls steady
      exact (hsettled b hb l a fresh.unmemoized (fresh.steady ha) hlike).1 c mem
  refine ⟨h.exploring.made, hmade, fun a ha => ?_, fun a reached closed => ?_, fun key => ?_⟩
  · have hstanding : a ∈ p.standing := List.mem_append_right _ ha
    exact ⟨h.exploring.made a (h.exploring.standing a hstanding), h.finishing.closed a ha⟩
  · obtain ⟨b, hb, hlike⟩ := hmade a reached
    have hclosed : hasPending b = false := (hasPending_eq_of_looksLike hlike).symm.trans closed
    obtain ⟨c, hc, hlike'⟩ := h.finishing.made b hb hclosed
    exact ⟨c, hc, looksLike_trans hlike hlike'⟩
  · refine ⟨h.exploring.undefined key, ?_⟩
    rintro ⟨l, a, reached, fresh, hkey⟩
    obtain ⟨b, hb, hlike⟩ := hmade a reached
    obtain ⟨_, ha⟩ := reached.exists_steady calls steady
    exact (hsettled b hb l a fresh.unmemoized (fresh.steady ha) hlike).2 key hkey

/-! ### Runs -/

variable {l : Ledger} {root : Fact}

theorem saturating_start (unmemoized : l.memo.enabled = []) (undefined : l.stats.undefined = [])
    (steady : Steady s L 0 [Goal.pending 0 root]) :
    Saturating s L [Goal.pending 0 root] (.start l root) := by
  refine ⟨⟨unmemoized, ?_, fun a ha => ha, ?_, ?_⟩, ?_, ⟨?_, ?_⟩, List.mem_singleton_self _⟩
  · intro a ha
    obtain rfl := List.mem_singleton.1 ha
    exact fun g hg name hname => (steady.below g hg name hname).mono (Nat.zero_le _)
  · intro a ha
    obtain rfl := List.mem_singleton.1 ha
    exact .query
  · simp [Listing.undefined, start, Progress.start, undefined]
  · intro a ha
    exact .inr ⟨a, ha, looksLike_self a⟩
  · intro a ha hclosed
    obtain rfl := List.mem_singleton.1 ha
    cases hclosed
  · simp [start, Progress.start]

theorem Saturating.run (calls : CallsSteady s L) (steady : Steady s L 0 query)
    (h : Saturating s L query p) (passes : Nat) :
    Saturating s L query (Listing.run s stopEarly none passes p).2 :=
  run_induction h (fun _ _ _ hp next => hp.advance calls steady next) passes

theorem Saturating.saturated_of_ended (calls : CallsSteady s L) (steady : Steady s L 0 query)
    (h : Saturating s L query p) {passes : Nat}
    (ended : Listing.run s false none passes p = (true, q)) : Saturated s query q := by
  have hrun : Saturating s L query (Listing.run s false none passes p).2 :=
    h.run calls steady passes
  rw [ended] at hrun
  exact hrun.saturated calls steady (waiting_eq_nil (next?_of_ended ended))

/-- No more solutions than those of a list look like them, no two of which look alike. -/
private theorem length_le_of_unlike {as bs : List Solution}
    (unlike : as.Pairwise fun a b => looksLike a b = false)
    (like : ∀ a ∈ as, ∃ b ∈ bs, looksLike a b = true) : as.length ≤ bs.length := by
  induction as generalizing bs with
  | nil => exact Nat.zero_le _
  | cons a as ih =>
    rw [List.pairwise_cons] at unlike
    rw [List.forall_mem_cons] at like
    obtain ⟨⟨b, hb, hlike⟩, hrest⟩ := like
    obtain ⟨before, behind, rfl⟩ := List.append_of_mem hb
    -- None of the others looks like `b`, or it would look like `a`.
    have hle : as.length ≤ (before ++ behind).length := by
      refine ih unlike.2 fun c hc => ?_
      obtain ⟨d, hd, hlike'⟩ := hrest c hc
      refine ⟨d, ?_, hlike'⟩
      have hne : d ≠ b := by
        rintro rfl
        have hac := looksLike_trans hlike (looksLike_symm hlike')
        rw [unlike.1 c hc] at hac
        cases hac
      simpa [hne] using hd
    simp only [List.length_append, List.length_cons] at hle ⊢
    omega

/-- A run comes to its end once it has made as many passes as a saturated listing has made solutions,
whatever the order of the clauses. -/
theorem Saturated.ends (rules : s.SameRules s') (calls : CallsSteady s L)
    (steady : Steady s L 0 query) (h : Saturated s query q) (start : Saturating s' L query p)
    (unlike : Unlike [] p) : (Listing.run s' stopEarly none (q.made.length + 1) p).1 = true := by
  refine Bool.eq_true_of_not_eq_false fun going => ?_
  -- A run that goes on has expanded a reached solution in every pass, no two of which look alike.
  obtain ⟨earlier, hlength, hunlike, hwaited⟩ := unlike.exists_run going
  have hle : earlier.length ≤ q.made.length := by
    refine length_le_of_unlike (List.pairwise_append.1 hunlike.pairwise).1 fun a ha => ?_
    obtain ⟨before, hbefore⟩ := hwaited a ha
    have hexploring : Exploring s' query (Listing.run s' stopEarly none before p).2 :=
      (start.run (rules.callsSteady calls) (rules.steady steady) before).exploring
    have hreached : Reached s' query a :=
      hexploring.made a (hexploring.standing a (List.mem_append_left _ hbefore))
    obtain ⟨b, hb, hlike⟩ := hreached.exists_like rules.symm (rules.callsSteady calls)
      (rules.steady steady)
    obtain ⟨c, hc, hlike'⟩ := h.made b hb
    exact ⟨c, hc, looksLike_trans hlike hlike'⟩
  omega

theorem Saturated.mem_undefined_iff (rules : s.SameRules s') (calls : CallsSteady s L)
    (steady : Steady s L 0 query) (h : Saturated s query p) (h' : Saturated s' query q)
    (key : String) : key ∈ p.undefined ↔ key ∈ q.undefined := by
  rw [h.undefined, h'.undefined]
  exact ⟨.of_sameRules rules calls steady,
    .of_sameRules rules.symm (rules.callsSteady calls) (rules.steady steady)⟩

/-- Every answer of a saturated listing is equal to one of another, whatever the order of the
clauses. -/
theorem Saturated.exists_answer (rules : s.SameRules s') (calls : CallsSteady s L)
    (steady : Steady s L 0 query) (h : Saturated s query p) (h' : Saturated s' query q)
    {values : List Literal} (mem : values ∈ p.answers false) :
    ∃ values' ∈ q.answers false, (values == values') = true := by
  rw [← answers_progress] at mem ⊢
  obtain ⟨a, ha, htuple⟩ := List.mem_filterMap.1 (mem_of_mem_distinct mem)
  obtain ⟨hreached, hclosed⟩ := h.finished a (List.mem_reverse.1 ha)
  obtain ⟨b, hb, hlike⟩ := hreached.exists_like rules calls steady
  obtain ⟨c, hc, hlike'⟩ :=
    h'.answered b hb ((hasPending_eq_of_looksLike hlike).symm.trans hclosed)
  obtain ⟨others, hothers, hequal⟩ :=
    exists_tuple?_beq (looksLike_trans hlike hlike') htuple
  obtain ⟨values', hmem, hequal'⟩ :=
    exists_mem_distinct (List.mem_filterMap.2 ⟨c, List.mem_reverse.2 hc, hothers⟩)
  exact ⟨values', hmem, BEq.trans hequal (BEq.symm hequal')⟩

end Listing

end Horn.Search
