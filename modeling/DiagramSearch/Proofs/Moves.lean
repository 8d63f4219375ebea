/-
# The moves of a search

Before each of its moves a search forgets what it no longer needs, and then ends or takes
up a sub-problem and visits it.  Of which steps a visit is made is said here once, whatever
the model and the values, so that what is kept by every step is kept by every run.

* `Solver.Tackles`: the steps of which a visit is made (`Solver.visit_tackles`).  Only by
  opening sub-problems that a diagram hands out (`Solver.Offers`) is anything queued, and
  the cache is only told thresholds;
* `Solver.Moment`: the states that a solver goes through in the course of a search, of
  which the last one is one (`Solver.search_moment`);
* `Session.popped`: what was taken from the queue.  Visits take nothing from it;
* `Solver.Upholds.moment`: what each step keeps of the sub-problems that were taken and of
  those that are open holds at all times.
-/

import DiagramSearch.Proofs.Terminating

namespace DiagramSearch

variable {σ κ V : Type}

/-! ### What was taken from the queue -/

namespace Session

/-- The sub-problems that were taken from the queue, in order. -/
def popped (s : Session σ κ V) : List (Subproblem σ V) :=
  s.journal.filterMap fun
    | .popped n => some n
    | _ => none

variable {s s' : Session σ κ V}

theorem popped_of_events_eq (h : s'.events = s.events) : s'.popped = s.popped := by
  rw [popped, popped, journal, journal, h]

theorem popped_record_popped (n : Subproblem σ V) :
    (s.record (.popped n)).popped = s.popped ++ [n] := by
  simp [popped, journal, record]

theorem popped_record {e : Event σ V} (he : ∀ n, e ≠ .popped n) :
    (s.record e).popped = s.popped := by
  cases e with
  | popped n => exact absurd rfl (he n)
  | _ => simp [popped, journal, record]

/-- What is taken over from a compilation on the side are notices. -/
theorem popped_resume (after : Session σ κ V) : (s.resume after).popped = s.popped := by
  simp only [popped, journal, resume, List.reverse_append, List.filterMap_append]
  refine (congrArg (s.events.reverse.filterMap _ ++ ·) ?_).trans (List.append_nil _)
  refine List.filterMap_eq_nil_iff.2 fun e he => ?_
  have hnotice := (List.mem_filter.1 (List.mem_reverse.1 he)).2
  cases e <;> first | rfl | cases hnotice

/-- **Compiling takes nothing from the queue.** -/
theorem Works.popped_eq [BEq σ] [BEq κ] [Value V] (h : s.Works s') : s'.popped = s.popped := by
  induction h with
  | refl => rfl
  | applied _ ih => exact (popped_of_events_eq rfl).trans ih
  | noted _ n ih => exact (popped_record (by nofun)).trans ih
  | sorted _ _ _ _ ih => exact (popped_record (by nofun)).trans ih
  | @checked s' _ rel state depth value ih =>
    exact (popped_record (s := s')
      (e := .checked state depth value (s'.check rel state depth value).1) (by nofun)).trans ih
  | @remembered s' _ state depth t ih =>
    exact (popped_record (s := s')
      (e := .remembered state depth t ((s'.cache.update state depth t).get? state depth))
      (by nofun)).trans ih
  | resumed _ after ih => exact (popped_resume after).trans ih

end Session

namespace Solver

/-- A move that takes up a sub-problem takes it from the queue. -/
theorem popped_takeUp (s : Solver σ κ V) (P : Subproblem σ V) (rest : List (Subproblem σ V)) :
    (s.retireLayers.takeUp P rest).session.popped = s.session.popped ++ [P] := by
  rw [retireLayers_eq_forget]
  exact Session.popped_record_popped P

/-! ### Visiting a sub-problem -/

variable [BEq σ] [Hashable σ] [BEq κ] [Value V]

/-- A sub-problem that a relaxed diagram of another one hands out. -/
def Offers (s : Solver σ κ V) (P z : Subproblem σ V) : Prop :=
  ∃ (r : Request σ κ V) (session : Session σ κ V) (report : Report V),
    r.model = s.settings.model.orient s.standing.sense ∧ r.kind = .relaxed ∧ r.residual = P ∧
      (r.compile session).outcome = .ok report ∧ z ∈ (r.compile session).diagram.handOut.1

/-- The steps of which a visit is made. -/
inductive Tackles (P : Subproblem σ V) (s : Solver σ κ V) : Solver σ κ V → Prop where
  | start : Tackles P s s
  | marked {s' : Solver σ κ V} (h : Tackles P s s') : Tackles P s
      { s' with session := s'.session.remember P.state P.depth ⟨P.value, true⟩ }
  | noted {s' : Solver σ κ V} (h : Tackles P s s') (n : Notice σ V) : Tackles P s (s'.note n)
  | compiled {s' : Solver σ κ V} (h : Tackles P s s') (kind : Kind) (width : Nat) :
      Tackles P s (s'.compile kind width P).1
  | published {s' : Solver σ κ V} (h : Tackles P s s') (value : Option V)
      (solution : Option Path) : Tackles P s (s'.publish value solution)
  | drained {s' : Solver σ κ V} (h : Tackles P s s') :
      Tackles P s { s' with diagram := s'.diagram.handOut.2 }
  | opened {s' : Solver σ κ V} (h : Tackles P s s') {z : Subproblem σ V} (hz : s.Offers P z) :
      Tackles P s (s'.push { z with bound := min P.bound z.bound })
  | measured {s' : Solver σ κ V} (h : Tackles P s s') : Tackles P s s'.measureQueue

variable {P : Subproblem σ V} {s s' : Solver σ κ V}

/-- A visit leaves the question alone. -/
theorem Tackles.frame (h : Tackles P s s') :
    s'.settings = s.settings ∧ s'.standing.sense = s.standing.sense := by
  induction h with
  | published _ value solution ih =>
    rcases publish_cases _ value solution with ⟨heq, _⟩ | ⟨v, path, _, _, _, heq⟩
    · rw [heq]
      exact ih
    · rw [heq]
      exact ih
  | start => exact ⟨rfl, rfl⟩
  | marked _ ih => exact ih
  | noted _ _ ih => exact ih
  | compiled _ _ _ ih => exact ih
  | drained _ ih => exact ih
  | opened _ _ ih => exact ih
  | measured _ ih => exact ih

/-- **A visit takes nothing from the queue.** -/
theorem Tackles.popped_eq (h : Tackles P s s') : s'.session.popped = s.session.popped := by
  induction h with
  | start => rfl
  | @marked s' _ ih =>
    exact ((Session.Works.refl (s := s'.session)).remembered _ _ _).popped_eq.trans ih
  | noted _ _ ih => exact (Session.popped_record (by nofun)).trans ih
  | @compiled s' _ kind width ih =>
    exact ((s'.request kind width P).compile_works s'.session).popped_eq.trans ih
  | published _ value solution ih =>
    rcases publish_cases _ value solution with ⟨heq, _⟩ | ⟨v, path, _, _, _, heq⟩
    · rw [heq]
      exact ih
    · rw [heq]
      exact (Session.popped_record (by nofun)).trans ((Session.popped_record (by nofun)).trans ih)
  | drained _ ih => exact ih
  | opened _ _ ih => exact (Session.popped_record (by nofun)).trans ih
  | measured _ ih => exact ih

theorem bound_tackles (h : Tackles P s s') (width : Nat) :
    Tackles P s (s'.bound width P).1 := by
  have hcompiled := h.compiled .relaxed width
  unfold bound
  split
  · rename_i heq
    rw [heq] at hcompiled
    exact hcompiled
  · rename_i s₁ c heq
    obtain ⟨rfl, hok⟩ := Prod.mk.inj heq
    split
    · exact hcompiled.published _ _
    · dsimp only
      split
      · refine openCutset_induction _ P.bound (M := Tackles P s) (hcompiled.published _ _).drained
          (fun t ht z hz => ht.opened ?_) fun t ht => ht.measured
        rw [(publish_frame _ _ _).1] at hz
        obtain ⟨hsettings, hsense⟩ := h.frame
        refine ⟨s'.request .relaxed width P, s'.session, c, ?_, rfl, rfl, hok, hz⟩
        rw [← hsettings, ← hsense]
        rfl
      · exact hcompiled.published _ _

theorem explore_tackles (h : Tackles P s s') : Tackles P s (s'.explore P).1 := by
  unfold explore
  extract_lets width sense noted
  have hcompiled := (h.noted (.exploring P.depth (sense.orient P.value) (sense.orient P.bound)
    width s'.queue.size)).compiled .restricted width
  split
  · rename_i heq
    rw [← Prod.mk.inj heq |>.1]
    exact hcompiled
  · rename_i s₁ c heq
    rw [← Prod.mk.inj heq |>.1]
    dsimp only
    split
    · exact hcompiled.published _ _
    · exact bound_tackles (hcompiled.published _ _) width

/-- **A visit is made of such steps.** -/
theorem visit_tackles (s : Solver σ κ V) (P : Subproblem σ V) :
    Tackles P s (s.visit P).1 := by
  unfold visit
  split
  · split
    · exact explore_tackles Tackles.start.marked
    · exact Tackles.start.noted _
  · exact explore_tackles .start

/-! ### Move after move -/

variable {cutoff : Cutoff V} {s₁ s₂ s₃ : Solver σ κ V}

/-- The states that a solver goes through: before a move, after it, and in the course of a
visit. -/
inductive Moment (cutoff : Cutoff V) (s : Solver σ κ V) : Solver σ κ V → Prop where
  | before {s₁ : Solver σ κ V} (h : s.Course cutoff s₁) : Moment cutoff s s₁
  | moved {s₁ : Solver σ κ V} (h : s.Course cutoff s₁) :
      Moment cutoff s (s₁.nextMove cutoff).1
  | during {s₁ s₂ s₃ : Solver σ κ V} {P : Subproblem σ V} (h : s.Course cutoff s₁)
      (hmove : s₁.nextMove cutoff = (s₂, .explore P)) (hvisit : s₂.Tackles P s₃) :
      Moment cutoff s s₃

/-- **A search stops in one of these states.** -/
theorem search_moment (cutoff : Cutoff V) (rounds : Nat) (s : Solver σ κ V) :
    s.Moment cutoff (search cutoff rounds s).1 := by
  suffices hcourse : ∀ s₁, s.Course cutoff s₁ → s.Moment cutoff (search cutoff rounds s₁).1 from
    hcourse s .start
  induction rounds with
  | zero => exact fun s₁ h => .before h
  | succ rounds ih =>
    intro s₁ h
    have hmoved := Moment.moved h
    unfold search
    split
    · rename_i heq
      rw [heq] at hmoved
      exact hmoved
    · rename_i heq
      rw [heq] at hmoved
      exact hmoved
    · rename_i s₂ P hmove
      have hduring := Moment.during h hmove (s₂.visit_tackles P)
      split
      · rename_i heq
        rw [heq] at hduring
        exact hduring
      · rename_i heq
        exact ih _ (h.next hmove heq)

omit [BEq σ] [Hashable σ] [BEq κ] in
/-- Ending a search takes nothing from the queue either. -/
theorem popped_finish (s : Solver σ κ V) (sense : Sense) (ending : Ending σ V) :
    (s.finish sense ending).1.session.popped = s.session.popped := by
  cases ending with
  | exhausted => exact Session.popped_record (by nofun)
  | stopped => exact Session.popped_record (by nofun)
  | faulty fault =>
    exact (Session.popped_record (by nofun)).trans (Session.popped_record (by nofun))

/-- What was taken from the queue once a search is over is what was taken at one of its
moments. -/
theorem exists_moment_popped (s : Solver σ κ V) (rounds : Nat) (sense : Sense)
    (cutoff : Cutoff V) : ∃ t, (s.openRoot sense).Moment cutoff t ∧
      (s.solve rounds sense cutoff).1.session.popped = t.session.popped := by
  refine ⟨_, search_moment cutoff rounds (s.openRoot sense), ?_⟩
  unfold solve
  split
  · rename_i heq
    rw [heq]
  · rename_i ending heq
    rw [heq]
    exact popped_finish _ sense ending

/-! ### What was taken and what is open -/

/-- A search leaves the question alone. -/
theorem Course.frame (h : s.Course cutoff s₁) :
    s₁.settings = s.settings ∧ s₁.standing.sense = s.standing.sense := by
  induction h with
  | start => exact ⟨rfl, rfl⟩
  | @next s₁ s₂ s₃ P _ hmove hvisit ih =>
    have hframe := (s₂.visit_tackles P).frame
    obtain ⟨rest, _, _, rfl⟩ := takeUp_of_explore hmove
    rw [hvisit, retireLayers_eq_forget] at hframe
    exact ⟨hframe.1.trans ih.1, hframe.2.trans ih.2⟩

/-- What is kept of the sub-problems that were taken from the queue and of those that are
open: as the first open one is taken, as all are dropped, and as one that a diagram of the
last one taken hands out is put in its place. -/
structure Upholds (s : Solver σ κ V)
    (M : List (Subproblem σ V) → List (Subproblem σ V) → Prop) : Prop where
  take : ∀ {taken P rest}, M taken (P :: rest) → M (taken ++ [P]) rest
  clear : ∀ {taken entries}, M taken entries → M taken []
  push : ∀ {taken P entries z}, s.Offers P z → M (taken ++ [P]) entries →
    M (taken ++ [P]) (Ordered.place (fun a b => s.settings.queueOrder a b == .gt)
      { z with bound := min P.bound z.bound } entries)

namespace Upholds

variable {M : List (Subproblem σ V) → List (Subproblem σ V) → Prop}

theorem nextMove (h : s.Upholds M) (hs₁ : M s₁.session.popped s₁.queue.entries)
    (cutoff : Cutoff V) :
    M (s₁.nextMove cutoff).1.session.popped (s₁.nextMove cutoff).1.queue.entries := by
  rcases s₁.nextMove_cases cutoff with
    ⟨_, heq⟩ | ⟨P, rest, hqueue, ⟨_, heq⟩ | ⟨_, heq⟩ | ⟨_, heq⟩⟩
  · rw [heq, retireLayers_eq_forget]
    exact hs₁
  · rw [heq, retireLayers_eq_forget]
    exact hs₁
  · rw [hqueue] at hs₁
    rw [heq]
    have hpopped : (s₁.retireLayers.take P rest).clearQueue.session.popped =
        s₁.session.popped ++ [P] :=
      (Session.popped_record (by nofun)).trans (s₁.popped_takeUp P rest)
    rw [hpopped]
    exact h.clear (h.take hs₁)
  · rw [hqueue] at hs₁
    rw [heq, popped_takeUp]
    exact h.take hs₁

theorem tackles (h : s.Upholds M) (hsettings : s₁.settings = s.settings)
    (hsense : s₁.standing.sense = s.standing.sense) {taken : List (Subproblem σ V)}
    (hpopped : s₁.session.popped = taken ++ [P]) (hs₁ : M s₁.session.popped s₁.queue.entries)
    (hvisit : s₁.Tackles P s₂) : M s₂.session.popped s₂.queue.entries := by
  rw [hvisit.popped_eq]
  rw [hpopped] at hs₁ ⊢
  induction hvisit with
  | published _ value solution ih =>
    rcases publish_cases _ value solution with ⟨heq, _⟩ | ⟨v, path, _, _, _, heq⟩
    · rw [heq]
      exact ih
    · rw [heq]
      exact ih
  | @opened _ htackles z hz ih =>
    have hz' : s.Offers P z := by
      unfold Offers at hz ⊢
      rwa [hsettings, hsense] at hz
    have hpush := h.push hz' ih
    rwa [← hsettings, ← htackles.frame.1] at hpush
  | start => exact hs₁
  | marked _ ih => exact ih
  | noted _ _ ih => exact ih
  | compiled _ _ _ ih => exact ih
  | drained _ ih => exact ih
  | measured _ ih => exact ih

/-- A visit to the sub-problem that a move takes up. -/
theorem visit (h : s.Upholds M) (hcourse : s.Course cutoff s₁)
    (hs₁ : M s₁.session.popped s₁.queue.entries)
    (hmove : s₁.nextMove cutoff = (s₂, .explore P)) (hvisit : s₂.Tackles P s₃) :
    M s₃.session.popped s₃.queue.entries := by
  have hs₂ := h.nextMove hs₁ cutoff
  rw [hmove] at hs₂
  obtain ⟨hsettings, hsense⟩ := hcourse.frame
  obtain ⟨rest, _, _, rfl⟩ := takeUp_of_explore hmove
  refine h.tackles ?_ ?_ (s₁.popped_takeUp P rest) hs₂ hvisit
  · rw [retireLayers_eq_forget]
    exact hsettings
  · rw [retireLayers_eq_forget]
    exact hsense

theorem course (h : s.Upholds M) (hs : M s.session.popped s.queue.entries)
    (hcourse : s.Course cutoff s₁) : M s₁.session.popped s₁.queue.entries := by
  induction hcourse with
  | start => exact hs
  | @next s₁ s₂ s₃ P hcourse hmove hvisit ih =>
    have hvisited := h.visit hcourse ih hmove (s₂.visit_tackles P)
    rwa [hvisit] at hvisited

/-- **What is kept of them holds at all times.** -/
theorem moment (h : s.Upholds M) (hs : M s.session.popped s.queue.entries)
    (hmoment : s.Moment cutoff s₁) : M s₁.session.popped s₁.queue.entries := by
  cases hmoment with
  | before hcourse => exact h.course hs hcourse
  | moved hcourse => exact h.nextMove (h.course hs hcourse) cutoff
  | during hcourse hmove hvisit => exact h.visit hcourse (h.course hs hcourse) hmove hvisit

end Upholds

end Solver
end DiagramSearch
