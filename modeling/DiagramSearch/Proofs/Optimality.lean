/-
# Optimality

Branch and bound finds the optimum of every lawful model, for every width, cut-set,
reduction and ranking, and in both senses; it ends without a fault.

* `Solver.solve_plain`: the plain search;
* `Solver.solve_cached`: with the cache of thresholds;
* `Solver.solve_dominance`: with a dominance relation that is compatible with the
  problem, and no cache;
* `Solver.solve_cached_dominance`: with both the search may miss the optimum, since
  a threshold that is borrowed from a dominating value may cut off the very path that
  the value was reached by.  It still reports a solution, and it reports the
  optimum unless a state was found to be dominated by a value that would have led
  the state itself to the optimum.
-/

import DiagramSearch.Proofs.Answering
import DiagramSearch.Proofs.Dominating

namespace DiagramSearch

open Extended

variable {σ κ : Type} [BEq σ] [LawfulBEq σ] [Hashable σ] [BEq κ] {sense : Sense}
  {s s' : Solver σ κ Extended}

/-! ### Nothing is lost -/

section Clean

omit [LawfulBEq σ] [Hashable σ]

/-- Without a dominance relation no pair is found to be dominated. -/
theorem Steady.clean_of_undominated (h : Steady s.settings sense (s.openRoot sense) s')
    (hdom : s.settings.dominance = none) (safe : Nat → σ → Extended → Prop) (cached : Prop) :
    Clean (s.settings.oriented sense) s.settings.branching safe cached s'.session.events := by
  have hevolves := h.evolves
  rw [hdom] at hevolves
  exact ⟨fun state k v t hmem => absurd hmem (hevolves.not_dominated Solver.checked_openRoot),
    fun _ state k v t hmem => absurd hmem (hevolves.not_dominated Solver.checked_openRoot)⟩

theorem Ends.clean_of_undominated
    (h : Ends s.settings sense (s.openRoot sense) (s.openRoot sense) s')
    (hdom : s.settings.dominance = none) (safe : Nat → σ → Extended → Prop) (cached : Prop) :
    Clean (s.settings.oriented sense) s.settings.branching safe cached s'.session.events :=
  h.steady.clean_of_undominated hdom safe cached

/-- What a search found to be dominated was covered by a pair that a trail leads
to. -/
theorem Ends.covered [LawfulBEq κ] {rel : Dominance σ κ}
    (h : Ends s.settings sense (s.openRoot sense) (s.openRoot sense) s')
    (hdom : s.settings.dominance = some rel) {state : σ} {k : Nat} {v t : Extended}
    (hmem : .checked state k v (some t) ∈ s'.session.events) :
    ∃ e : Dominance.Entry σ Extended,
      (s.settings.oriented sense).Reaches s.settings.branching e.state k e.value ∧
      (∃ key, rel.key state = some key ∧ rel.key e.state = some key) ∧
      e.covers rel state v = true ∧ e.value = t := by
  have hevolves := h.steady.evolves
  rw [hdom] at hevolves
  refine hevolves.covered ?_ (fun _ _ _ _ => Solver.checked_openRoot) hmem
  rw [Solver.table_openRoot]
  exact fun _ _ _ he => absurd he List.not_mem_nil

end Clean

/-! ### A small search -/

/-- Two picks of nought or one, each worth itself; the state counts the ones. -/
def twoPicks : Problem Nat Extended where
  «variables» := 2
  initialState := 0
  initialValue := 0
  transition _ s d := s + d.value.toNat
  cost _ d := finite d.value
  domain v _ := [⟨v, 0⟩, ⟨v, 1⟩]

/-- One node to a layer, so that all of them are merged. -/
def twoPicksSettings (useCache : Bool) (dominance : Option (Dominance Nat Unit)) :
    Settings Nat Unit Extended where
  model :=
    { problem := twoPicks
      relaxation :=
        { merge := fun xs => xs.headD 0
          relax := fun _ _ _ _ c => c
          upperBound := fun _ _ => posInf
          lowerBound := fun _ _ => negInf } }
  ranking := compare
  queueOrder := Subproblem.byBound compare
  width _ := 1
  branching := .least
  dominance
  mergeOrder := .byCost
  dropOrder := .byCost
  cutset := .lastExactLayer
  useCache
  checks := .extended
  clock _ := 0

/-- What can still be gained does not depend on the state. -/
theorem twoPicks_optimum (sense : Sense) (b : Branching Nat) (free : Variables) (s s' : Nat) :
    (twoPicks.orient sense).optimum b free s = (twoPicks.orient sense).optimum b free s' := by
  have hin : ∀ rounds free s s', (twoPicks.orient sense).optimumIn b rounds free s =
      (twoPicks.orient sense).optimumIn b rounds free s' := by
    intro rounds
    induction rounds with
    | zero => exact fun _ _ _ => rfl
    | succ rounds ih =>
      intro free s s'
      unfold Problem.optimumIn
      split
      · rfl
      · refine congrArg (List.foldl max _) (List.map_congr_left fun d _ => ?_)
        exact congrArg _ (ih _ _ _)
  exact hin _ _ _ _

theorem twoPicks_lawful (sense : Sense) (useCache : Bool)
    (dominance : Option (Dominance Nat Unit)) :
    (twoPicksSettings useCache dominance).Lawful sense where
  isPure _ _ _ _ := rfl
  focused v s d hd := by
    rcases List.mem_pair.1 hd with rfl | rfl
    · rfl
    · rfl
  finite_cost _ _ := rfl
  finite_start := rfl
  static _ _ _ := rfl
  total free states hsize := by
    change (List.head? free.toList.attach).isSome = true
    rw [List.isSome_head?]
    simpa [Variables.size] using hsize
  sound := by
    refine ⟨fun s free => ?_, fun xs free source v d _ _ => ?_⟩
    · cases sense with
      | maximize => exact le_posInf _
      | minimize => exact le_posInf _
    · refine add_le_add ?_ (twoPicks_optimum sense _ free _ _).le
      change _ ≤ sense.orient (sense.orient (sense.orient _))
      rw [Sense.orient_orient]
      exact le_rfl
  bestFirst := ⟨compare, rfl⟩

/-- The more ones the better. -/
def moreOnes : Dominance Nat Unit where
  key _ := some ()
  le a b := decide (a ≤ b)

theorem moreOnes_compatible (sense : Sense) : moreOnes.Compatible (twoPicks.orient sense) where
  refl a _ _ := decide_eq_true (Nat.le_refl a)
  trans a b c _ _ _ _ hab hbc :=
    decide_eq_true ((of_decide_eq_true hab).trans (of_decide_eq_true hbc))
  antisymm a b _ _ _ hab hba := Nat.le_antisymm (of_decide_eq_true hab) (of_decide_eq_true hba)
  matched a b _ _ _ hle v d hd := by
    refine ⟨d, hd, le_rfl, .inr ⟨(), rfl, rfl, decide_eq_true ?_⟩⟩
    exact Nat.add_le_add_right (of_decide_eq_true hle) _

theorem total_twoPicks_maximize : (twoPicks.orient .maximize).total .least = finite 2 := by
  decide +kernel

theorem total_twoPicks_minimize : (twoPicks.orient .minimize).total .least = finite 0 := by
  decide +kernel

/-! ### The searches -/

/-- **The plain search finds the optimum.** -/
theorem Solver.solve_plain (s : Solver σ κ Extended) (sense : Sense)
    (hset : s.settings.Lawful sense) (hprimal : s.primal = none)
    (hcache : s.settings.useCache = false) (hdom : s.settings.dominance = none) :
    ∃ s' stats enough, s.settings.Answers sense s' stats ∧
      ∀ rounds, enough ≤ rounds → s.solve rounds sense Cutoff.never = (s', some (.ok stats)) := by
  obtain ⟨s', enough, hends, hsolve⟩ := Solver.solve_ends hset hprimal
  refine ⟨s'.concluded, _, enough, hends.answers hset fun hne => ?_, hsolve⟩
  exact ⟨_, ⟨Problem.thread_all hne le_rfl, fun huse => by rw [hcache] at huse; cases huse⟩,
    hends.clean_of_undominated hdom _ _⟩

theorem Solver.solve_plain_twoPicks : ∃ s' stats enough, stats.incumbent = some (finite 2) ∧
    ∀ rounds, enough ≤ rounds →
      (Solver.ofSettings (twoPicksSettings false none)).solve rounds .maximize Cutoff.never =
        (s', some (.ok stats)) := by
  obtain ⟨s', stats, enough, hanswers, hsolve⟩ := Solver.solve_plain
    (.ofSettings (twoPicksSettings false none)) .maximize (twoPicks_lawful _ _ _) rfl rfl rfl
  have hreports := hanswers.feasible (total_twoPicks_maximize.trans_ne nofun)
  exact ⟨s', stats, enough, hreports.incumbent.trans (congrArg some total_twoPicks_maximize), hsolve⟩

/-- **The search with the cache finds the optimum.** -/
theorem Solver.solve_cached (s : Solver σ κ Extended) (sense : Sense)
    (hset : s.settings.Lawful sense) (hprimal : s.primal = none)
    (_hcache : s.settings.useCache = true) (hdom : s.settings.dominance = none) :
    ∃ s' stats enough, s.settings.Answers sense s' stats ∧
      ∀ rounds, enough ≤ rounds → s.solve rounds sense Cutoff.never = (s', some (.ok stats)) := by
  obtain ⟨s', enough, hends, hsolve⟩ := Solver.solve_ends hset hprimal
  refine ⟨s'.concluded, _, enough, hends.answers hset fun hne => ?_, hsolve⟩
  exact ⟨_, ⟨Problem.thread_all hne le_rfl, fun _ _ _ _ h => h⟩,
    hends.clean_of_undominated hdom _ _⟩

theorem Solver.solve_cached_twoPicks : ∃ s' stats enough, stats.incumbent = some (finite 0) ∧
    ∀ rounds, enough ≤ rounds →
      (Solver.ofSettings (twoPicksSettings true none)).solve rounds .minimize Cutoff.never =
        (s', some (.ok stats)) := by
  obtain ⟨s', stats, enough, hanswers, hsolve⟩ := Solver.solve_cached
    (.ofSettings (twoPicksSettings true none)) .minimize (twoPicks_lawful _ _ _) rfl rfl rfl
  have hreports := hanswers.feasible (total_twoPicks_minimize.trans_ne nofun)
  exact ⟨s', stats, enough,
    hreports.incumbent.trans (congrArg (fun v => some (neg v)) total_twoPicks_minimize), hsolve⟩

variable [LawfulBEq κ]

/-- **The search with dominance and no cache finds the optimum**: the ridge is
never pruned. -/
theorem Solver.solve_dominance (s : Solver σ κ Extended) (sense : Sense)
    (hset : s.settings.Lawful sense) (hprimal : s.primal = none)
    (hcache : s.settings.useCache = false) (rel : Dominance σ κ)
    (hdom : s.settings.dominance = some rel)
    (hrel : rel.Compatible (s.settings.oriented sense)) :
    ∃ s' stats enough, s.settings.Answers sense s' stats ∧
      ∀ rounds, enough ≤ rounds → s.solve rounds sense Cutoff.never = (s', some (.ok stats)) := by
  have huncached : ¬s.settings.useCache = true := by rw [hcache]; exact Bool.false_ne_true
  obtain ⟨s', enough, hends, hsolve⟩ := Solver.solve_ends hset hprimal
  refine ⟨s'.concluded, _, enough, hends.answers hset fun hne => ?_, hsolve⟩
  refine ⟨_, ⟨Problem.thread_ridge hrel hset.total hne le_rfl, fun huse => absurd huse huncached⟩,
    fun state k v t hmem w hle hridge => ?_, fun huse => absurd huse huncached⟩
  obtain ⟨e, hreach, hkey, hcovers, _⟩ := hends.covered hdom hmem
  rw [hridge.not_covered hle hreach hkey] at hcovers
  cases hcovers

theorem Solver.solve_dominance_twoPicks : ∃ s' stats enough, stats.incumbent = some (finite 2) ∧
    ∀ rounds, enough ≤ rounds →
      (Solver.ofSettings (twoPicksSettings false (some moreOnes))).solve rounds .maximize
        Cutoff.never = (s', some (.ok stats)) := by
  obtain ⟨s', stats, enough, hanswers, hsolve⟩ := Solver.solve_dominance
    (.ofSettings (twoPicksSettings false (some moreOnes))) .maximize (twoPicks_lawful _ _ _) rfl rfl
    moreOnes rfl (moreOnes_compatible _)
  have hreports := hanswers.feasible (total_twoPicks_maximize.trans_ne nofun)
  exact ⟨s', stats, enough, hreports.incumbent.trans (congrArg some total_twoPicks_maximize), hsolve⟩

/-- **With both, the search reports a solution**, and the optimum unless a state was
found to be dominated by a value that would have led it to the optimum. -/
theorem Solver.solve_cached_dominance (s : Solver σ κ Extended) (sense : Sense)
    (hset : s.settings.Lawful sense) (hprimal : s.primal = none)
    (rel : Dominance σ κ) (hdom : s.settings.dominance = some rel) :
    ∃ s' stats enough,
      (∀ rounds, enough ≤ rounds → s.solve rounds sense Cutoff.never = (s', some (.ok stats))) ∧
      (s'.Denies stats ∨ ∃ v ≤ (s.settings.oriented sense).total s.settings.branching,
        s'.Reports stats (sense.orient v)) ∧
      ((∀ state k v t, .checked state k v (some t) ∈ s'.session.events →
        t + (s.settings.oriented sense).optimumFrom s.settings.branching k state <
          (s.settings.oriented sense).total s.settings.branching) →
        s.settings.Answers sense s' stats) := by
  obtain ⟨s', enough, hends, hsolve⟩ := Solver.solve_ends hset hprimal
  refine ⟨s'.concluded, _, enough, hsolve, ?_, fun houtbid => hends.answers hset fun hne => ?_⟩
  · rcases hends.steady.concludes hset hends.primal with ⟨_, hdenies⟩ | ⟨hle, hreports⟩
    · exact .inl hdenies
    · exact .inr ⟨_, hle, hreports⟩
  · have hout : ∀ state k v t, .checked state k v (some t) ∈ s'.session.events →
        t + (s.settings.oriented sense).optimumFrom s.settings.branching k state <
          (s.settings.oriented sense).total s.settings.branching :=
      fun state k v t hmem => houtbid state k v t (List.mem_cons_of_mem _ hmem)
    refine ⟨_, ⟨Problem.thread_all hne le_rfl, fun _ _ _ _ h => h⟩,
      fun state k v t hmem w hle hreach => ?_, fun _ => hout⟩
    obtain ⟨e, _, _, hcovers, rfl⟩ := hends.covered hdom hmem
    simp only [Dominance.Entry.covers, Bool.and_eq_true, decide_eq_true_eq] at hcovers
    have hlt := hout state k v e.value hmem
    exact absurd (hreach.trans (add_le_add_left (hle.trans hcovers.1.1) _)) (not_le.2 hlt)

theorem Solver.solve_cached_dominance_twoPicks : ∃ s' stats enough,
    (∀ rounds, enough ≤ rounds →
      (Solver.ofSettings (twoPicksSettings true (some moreOnes))).solve rounds .maximize
        Cutoff.never = (s', some (.ok stats))) ∧
    (s'.Denies stats ∨ ∃ v ≤ finite 2, s'.Reports stats v) := by
  obtain ⟨s', stats, enough, hsolve, hreports, _⟩ := Solver.solve_cached_dominance
    (.ofSettings (twoPicksSettings true (some moreOnes))) .maximize (twoPicks_lawful _ _ _) rfl
    moreOnes rfl
  refine ⟨s', stats, enough, hsolve, hreports.imp_right fun ⟨v, hle, hv⟩ => ⟨v, ?_, hv⟩⟩
  exact hle.trans_eq total_twoPicks_maximize

end DiagramSearch
