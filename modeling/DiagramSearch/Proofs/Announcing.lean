/-
# Solutions that are handed out

A search hands out a solution when it finds a better one.  Nothing it relies on for
its speed is relied on here: bounds, merges and dominance may be wrong, the queue
may have any order, the search may be cut off or come upon a fault, and values may
be undefined.  All that is asked is that transitions are pure.

* `Candid`: what holds of a solver in the course of a run; `Candid.publish` is the
  step at which a solution is handed out, `Candid.idles` all others;
* `Candid.publish_best`, `Candid.publish_bestExact`, `Candid.openCutset`: what a
  diagram tells is handed out and opened;
* `Solver.search_candid`: **all of it holds however long a search goes on**, and
  however it ends.
-/

import DiagramSearch.Proofs.Journaling
import DiagramSearch.Proofs.Advancing

namespace DiagramSearch

variable {σ κ V : Type}

/-! ### What was handed out -/

namespace Session

/-- The solutions handed out, in order, with the values reported. -/
def announced (s : Session σ κ V) : List (Path × Option V) :=
  s.journal.filterMap fun
    | .incumbent path stats => some (path, stats.incumbent)
    | _ => none

/-- The path of a sub-problem that was taken from the queue, or of the root. -/
def Opened (s : Session σ κ V) (path : Path) : Prop :=
  path = [] ∨ ∃ n, .popped n ∈ s.events ∧ n.path = path

variable {s s' : Session σ κ V}

theorem Silent.announced_eq (h : s.Silent s') : s'.announced = s.announced := by
  obtain ⟨new, heq, hnew⟩ := h
  rw [announced, announced, journal, journal, heq, List.reverse_append, List.filterMap_append]
  have hnone : new.reverse.filterMap (fun
      | .incumbent path stats => some (path, stats.incumbent)
      | _ => none : Event σ V → Option (Path × Option V)) = [] := by
    refine List.filterMap_eq_nil_iff.2 fun e he => ?_
    split
    · exact absurd (List.mem_reverse.1 he) (hnew _ _)
    · rfl
  rw [hnone, List.append_nil]

theorem announced_record (path : Path) (stats : Statistics V) :
    (s.record (.incumbent path stats)).announced = s.announced ++ [(path, stats.incumbent)] := by
  simp [announced, journal, record]

theorem Opened.mono (h : ∀ e ∈ s.events, e ∈ s'.events) {path : Path} (hopened : s.Opened path) :
    s'.Opened path :=
  hopened.imp_right fun ⟨n, hn, heq⟩ => ⟨n, h _ hn, heq⟩

end Session

section Mono

variable [Value V] {p : Problem σ V} {ends ends' : Path → Prop}

theorem Subproblem.Founded.mono (himp : ∀ path, ends path → ends' path) {n : Subproblem σ V}
    (h : n.Founded p ends) : n.Founded p ends' :=
  ⟨h.attests.mono himp, h.assigned⟩

theorem Problem.Delivers.mono (himp : ∀ path, ends path → ends' path) {b : Branching σ}
    {path : Path} {v : V} (h : p.Delivers b ends path v) : p.Delivers b ends' path v :=
  ⟨h.attests.imp fun _ hs => hs.mono himp, h.complete⟩

end Mono

/-! ### In the course of a run -/

/-- A step by which no solution is found and no sub-problem is opened. -/
structure Solver.Idles (s s' : Solver σ κ V) : Prop where
  settings : s'.settings = s.settings
  sense : s'.standing.sense = s.standing.sense
  lower : s'.standing.lower = s.standing.lower
  solution : s'.standing.solution = s.standing.solution
  session : s.session.Silent s'.session
  queue : ∀ n ∈ s'.queue.entries, n ∈ s.queue.entries

namespace Solver.Idles

variable {s s' s'' : Solver σ κ V}

theorem trans (h : s.Idles s') (h' : s'.Idles s'') : s.Idles s'' :=
  ⟨h'.settings.trans h.settings, h'.sense.trans h.sense, h'.lower.trans h.lower,
    h'.solution.trans h.solution, h.session.trans h'.session, fun n hn => h.queue n (h'.queue n hn)⟩

theorem note (s : Solver σ κ V) (n : Notice σ V) : s.Idles (s.note n) :=
  ⟨rfl, rfl, rfl, rfl, Session.silent_note n, fun _ hn => hn⟩

theorem conclude (s : Solver σ κ V) (exhausted : Bool) : s.Idles (s.conclude exhausted) :=
  ⟨rfl, rfl, rfl, rfl, .refl _, fun _ hn => hn⟩

theorem clearQueue (s : Solver σ κ V) : s.Idles s.clearQueue :=
  ⟨rfl, rfl, rfl, rfl, Session.silent_record nofun, fun _ hn => absurd hn List.not_mem_nil⟩

end Solver.Idles

variable [Value V]

/-- What was found since the start of a run, in order, with its values as the engine
sees them. -/
structure Found (set : Settings σ κ V) (sense : Sense) (start : Standing V) (s : Solver σ κ V)
    (found : List (Path × V)) : Prop where
  announced : s.session.announced = found.map fun f => (f.1, some (sense.orient f.2))
  delivers : ∀ f ∈ found, f.2 ≤ f.2 ∧
    (set.model.problem.orient sense).Delivers set.branching s.session.Opened f.1 f.2
  increasing : (start.lower :: found.map (·.2)).Pairwise (· < ·)
  /-- The last solution found is the incumbent. -/
  last : (s.standing.solution, s.standing.lower) =
    (found.getLast?.map fun f => (some f.1, f.2)).getD (start.solution, start.lower)

/-- A solver that has handed out what it found, and nothing else. -/
structure Candid (set : Settings σ κ V) (sense : Sense) (start : Standing V)
    (s : Solver σ κ V) : Prop where
  settings : s.settings = set
  oriented : s.standing.sense = sense
  found : ∃ found, Found set sense start s found

/-- All open sub-problems can be reached. -/
def Stocked (set : Settings σ κ V) (sense : Sense) (s : Solver σ κ V) : Prop :=
  ∀ n ∈ s.queue.entries, n.value ≤ n.value →
    n.Founded (set.model.problem.orient sense) s.session.Opened

variable {set : Settings σ κ V} {sense : Sense} {start : Standing V} {s s' : Solver σ κ V}

theorem Candid.idles (h : Candid set sense start s) (hi : s.Idles s') :
    Candid set sense start s' := by
  obtain ⟨found, hfound⟩ := h.found
  refine ⟨hi.settings.trans h.settings, hi.sense.trans h.oriented, found, ?_, fun f hf => ?_,
    hfound.increasing, ?_⟩
  · rw [hi.session.announced_eq]
    exact hfound.announced
  · obtain ⟨hdef, hdelivers⟩ := hfound.delivers f hf
    exact ⟨hdef, hdelivers.mono fun _ => .mono fun _ => hi.session.mem_events⟩
  · rw [hi.solution, hi.lower]
    exact hfound.last

theorem Stocked.idles (h : Stocked set sense s) (hi : s.Idles s') : Stocked set sense s' :=
  fun n hn hdef => (h n (hi.queue n hn) hdef).mono fun _ => .mono fun _ => hi.session.mem_events

/-- Opening a sub-problem finds no solution either. -/
theorem Candid.push (h : Candid set sense start s) (n : Subproblem σ V) :
    Candid set sense start (s.push n) := by
  have hrecord : s.Idles { s with session := s.session.record (.pushed n) } :=
    ⟨rfl, rfl, rfl, rfl, Session.silent_record nofun, fun _ hm => hm⟩
  obtain ⟨hsettings, horiented, found, hfound⟩ := h.idles hrecord
  exact ⟨hsettings, horiented, found, hfound.announced, hfound.delivers, hfound.increasing,
    hfound.last⟩

theorem Stocked.push (h : Stocked set sense s) {n : Subproblem σ V}
    (hn : n.value ≤ n.value → n.Founded (set.model.problem.orient sense) s.session.Opened) :
    Stocked set sense (s.push n) := by
  intro m hm hdef
  have hmono : ∀ path, s.session.Opened path → (s.push n).session.Opened path :=
    fun _ => .mono fun _ he => List.mem_cons_of_mem _ he
  rcases List.mem_cons.1 ((s.queue.entries_push_perm s.settings.queueOrder n).mem_iff.1 hm) with
    rfl | hm
  · exact (hn hdef).mono hmono
  · exact (h m hm hdef).mono hmono

/-- What is told besides, when a solution is handed out, is silent. -/
theorem Solver.publish_silent (s : Solver σ κ V) (value : Option V) (solution : Option Path) :
    s.publish value solution = s ∨ ∃ v path, value = some v ∧ solution = some path ∧
      s.standing.lower < v ∧ ∃ session, s.session.Silent session ∧
        s.publish value solution = { s with
          standing := s.standing.adopt v path
          session := session.record
            (.incumbent path ((s.standing.adopt v path).statistics s.settings.clock)) } := by
  rcases s.publish_cases value solution with ⟨heq, _⟩ | ⟨v, path, hvalue, hsolution, hlt, heq⟩
  · exact .inl heq
  · exact .inr ⟨v, path, hvalue, hsolution, hlt, _, Session.silent_note _, heq⟩

/-- **What is handed out is a better solution, and the incumbent from then on.** -/
theorem Candid.publish [Value.Lawful V] (h : Candid set sense start s) {value : Option V}
    {solution : Option Path}
    (hdelivers : ∀ v path, value = some v → solution = some path → v ≤ v →
      (set.model.problem.orient sense).Delivers set.branching s.session.Opened path v) :
    Candid set sense start (s.publish value solution) := by
  rcases s.publish_silent value solution with heq | ⟨v, path, rfl, rfl, hlt, session, hsilent, heq⟩
  · rw [heq]
    exact h
  · rw [heq]
    obtain ⟨found, hfound⟩ := h.found
    have hmono : ∀ path', s.session.Opened path' → (session.record (.incumbent path
        ((s.standing.adopt v path).statistics s.settings.clock))).Opened path' :=
      fun _ => .mono fun _ he => List.mem_cons_of_mem _ (hsilent.mem_events he)
    have hdef : v ≤ v := Value.Lawful.defined_of_lt hlt
    refine ⟨h.settings, h.oriented, found ++ [(path, v)], ?_, fun f hf => ?_, ?_, ?_⟩
    · have hvalue : ((s.standing.adopt v path).statistics s.settings.clock).incumbent =
          some (sense.orient v) := by
        rw [← h.oriented]
        rfl
      rw [Session.announced_record, hsilent.announced_eq, hfound.announced, hvalue,
        List.map_append]
      rfl
    · rcases List.mem_append.1 hf with hf | hf
      · obtain ⟨hdef', hdelivers'⟩ := hfound.delivers f hf
        exact ⟨hdef', hdelivers'.mono hmono⟩
      · obtain rfl := List.mem_singleton.1 hf
        exact ⟨hdef, (hdelivers v path rfl rfl hdef).mono hmono⟩
    · -- The incumbent is the greatest value so far, and the new one is greater.
      rw [List.map_append, ← List.cons_append]
      refine List.pairwise_append.2 ⟨hfound.increasing, List.pairwise_singleton _ _, ?_⟩
      intro a ha b hb
      obtain rfl := List.mem_singleton.1 hb
      have hlast : s.standing.lower = _ := congrArg Prod.snd hfound.last
      rcases List.eq_nil_or_concat' found with rfl | ⟨front, f, rfl⟩
      · obtain rfl := List.mem_singleton.1 ha
        rw [hlast] at hlt
        exact hlt
      · have hf : s.standing.lower = f.2 := by simpa using hlast
        rw [hf] at hlt
        have hincreasing := hfound.increasing
        rw [List.map_append, ← List.cons_append] at hincreasing ha
        rcases List.mem_append.1 ha with ha | ha
        · have := (List.pairwise_append.1 hincreasing).2.2 a ha f.2 (by simp)
          exact Value.Lawful.lt_trans this hlt
        · obtain rfl : a = f.2 := by simpa using ha
          exact hlt
    · simp [Standing.adopt]

theorem Stocked.publish (h : Stocked set sense s) (value : Option V) (solution : Option Path) :
    Stocked set sense (s.publish value solution) := by
  rcases s.publish_silent value solution with heq | ⟨v, path, _, _, _, session, hsilent, heq⟩
  · rw [heq]
    exact h
  · rw [heq]
    exact fun n hn hdef => (h n hn hdef).mono fun _ => .mono fun _ he =>
      List.mem_cons_of_mem _ (hsilent.mem_events he)

theorem Solver.publish_frame (s : Solver σ κ V) (value : Option V) (solution : Option Path) :
    (s.publish value solution).diagram = s.diagram ∧
      ∀ e ∈ s.session.events, e ∈ (s.publish value solution).session.events := by
  rcases s.publish_silent value solution with heq | ⟨v, path, _, _, _, session, hsilent, heq⟩
  · rw [heq]
    exact ⟨rfl, fun _ he => he⟩
  · rw [heq]
    exact ⟨rfl, fun _ he => List.mem_cons_of_mem _ (hsilent.mem_events he)⟩

/-- What opening a sub-problem keeps, opening those that are handed out keeps. -/
theorem Solver.openCutset_induction {M : Solver σ κ V → Prop} (s : Solver σ κ V) (bound : V)
    (hstart : M { s with diagram := s.diagram.handOut.2 })
    (hpush : ∀ t, M t → ∀ z ∈ s.diagram.handOut.1,
      M (t.push { z with bound := min bound z.bound }))
    (hmeasure : ∀ t, M t → M t.measureQueue) : M (s.openCutset bound) := by
  refine hmeasure _ (List.foldlRecOn s.diagram.handOut.1 _ (motive := M) hstart fun t ht z hz => ?_)
  dsimp only
  split
  · exact hpush t ht z hz
  · exact ht

/-! ### Exploring a sub-problem -/

/-- A sub-problem that is reached and was taken from the queue, unless it is the
root. -/
structure Picked (set : Settings σ κ V) (sense : Sense) (s : Solver σ κ V)
    (node : Subproblem σ V) : Prop where
  founded : node.value ≤ node.value →
    node.Founded (set.model.problem.orient sense) s.session.Opened
  opened : s.session.Opened node.path

/-- A solver whose diagram is one of a sub-problem. -/
structure Draws (set : Settings σ κ V) (sense : Sense) (kind : Kind) (node : Subproblem σ V)
    (s : Solver σ κ V) : Prop where
  tells : ∃ r : Request σ κ V, ∃ free, Tells r free s.diagram ∧ r.kind = kind ∧
    r.residual = node ∧ r.branching = set.branching ∧
      r.model.problem = set.model.problem.orient sense

variable {node : Subproblem σ V} {kind : Kind}

theorem Draws.congr (h : Draws set sense kind node s) (heq : s'.diagram = s.diagram) :
    Draws set sense kind node s' := by
  obtain ⟨r, free, htells, hr⟩ := h.tells
  rw [← heq] at htells
  exact ⟨r, free, htells, hr⟩

theorem Picked.mono (h : Picked set sense s node)
    (hsession : ∀ e ∈ s.session.events, e ∈ s'.session.events) : Picked set sense s' node :=
  ⟨fun hdef => (h.founded hdef).mono fun _ => .mono hsession, h.opened.mono hsession⟩

theorem Picked.idles (h : Picked set sense s node) (hi : s.Idles s') : Picked set sense s' node :=
  h.mono fun _ => hi.session.mem_events

section Tell

variable [Value.Lawful V]

theorem Candid.publish_best (h : Candid set sense start s) (hpicked : Picked set sense s node)
    (hdraws : Draws set sense kind node s)
    (hcase : kind ≠ .relaxed ∨ s.diagram.isExact = true) :
    Candid set sense start (s.publish s.diagram.bestValue s.diagram.bestSolution) := by
  obtain ⟨r, free, htells, rfl, rfl, hb, hp⟩ := hdraws.tells
  refine h.publish fun v path hv hpath hdef => ?_
  rw [← hb, ← hp]
  exact htells.delivers_best hcase (hp ▸ hpicked.founded) hpicked.opened hv hpath hdef

theorem Candid.publish_bestExact (h : Candid set sense start s) (hpicked : Picked set sense s node)
    (hdraws : Draws set sense kind node s) :
    Candid set sense start (s.publish s.diagram.bestExactValue s.diagram.bestExactSolution) := by
  obtain ⟨r, free, htells, rfl, rfl, hb, hp⟩ := hdraws.tells
  refine h.publish fun v path hv hpath hdef => ?_
  rw [← hb, ← hp]
  exact htells.delivers_bestExact (hp ▸ hpicked.founded) hpicked.opened hv hpath hdef

/-- **What is opened is reached.** -/
theorem Candid.openCutset (h : Candid set sense start s) (hstock : Stocked set sense s)
    (hpicked : Picked set sense s node) (hdraws : Draws set sense kind node s) (bound : V) :
    Candid set sense start (s.openCutset bound) ∧ Stocked set sense (s.openCutset bound) := by
  obtain ⟨r, free, htells, rfl, rfl, hb, hp⟩ := hdraws.tells
  have hsubs : ∀ m ∈ s.diagram.handOut.1, m.value ≤ m.value →
      m.Founded (set.model.problem.orient sense) s.session.Opened := by
    intro m hm hdef
    rw [← hp]
    exact htells.founded_handOut (hp ▸ hpicked.founded) hpicked.opened hm hdef
  have hopened := s.openCutset_induction bound (M := fun t => Candid set sense start t ∧
      Stocked set sense t ∧ ∀ e ∈ s.session.events, e ∈ t.session.events) ?_ ?_ ?_
  · exact ⟨hopened.1, hopened.2.1⟩
  · exact ⟨h.idles ⟨rfl, rfl, rfl, rfl, .refl _, fun _ hn => hn⟩, hstock, fun _ he => he⟩
  · rintro t ⟨ht, hstocked, hevents⟩ m hm
    refine ⟨ht.push _, hstocked.push fun hdef => ?_,
      fun e he => List.mem_cons_of_mem _ (hevents e he)⟩
    have hfounded := hsubs m hm hdef
    exact ⟨hfounded.attests.mono fun _ => .mono hevents, hfounded.assigned⟩
  · rintro t ⟨ht, hstocked, hevents⟩
    exact ⟨ht.idles ⟨rfl, rfl, rfl, rfl, .refl _, fun _ hn => hn⟩, hstocked, hevents⟩

end Tell

section Explore

variable [BEq σ] [Hashable σ] [BEq κ]

theorem Solver.Idles.compile (s : Solver σ κ V) (kind : Kind) (width : Nat)
    (node : Subproblem σ V) : s.Idles (s.compile kind width node).1 :=
  ⟨rfl, rfl, rfl, rfl, (s.request kind width node).compile_silent s.session, fun _ hn => hn⟩

variable [LawfulBEq σ]

theorem Candid.draws (hpure : set.model.problem.Pure) (h : Candid set sense start s)
    {width : Nat} {report : Report V}
    (hok : s.compile kind width node = (s', .ok report)) :
    Draws set sense kind node s' ∧ report = ⟨s'.diagram.isExact, s'.diagram.bestValue⟩ := by
  obtain ⟨rfl, hreport⟩ := Prod.mk.inj hok
  have hpure' : (s.request kind width node).model.problem.Pure := by
    rw [← h.settings] at hpure
    exact hpure
  obtain ⟨free, htells, heq⟩ := Request.compile_tells hpure' hreport
  refine ⟨⟨_, free, htells, rfl, rfl, ?_, ?_⟩, heq⟩
  · exact congrArg Settings.branching h.settings
  · rw [← h.settings, ← h.oriented]
    rfl

variable [Value.Lawful V]

/-- Bounding a sub-problem. -/
theorem Solver.bound_candid (hpure : set.model.problem.Pure) (h : Candid set sense start s)
    (hstock : Stocked set sense s) (hpicked : Picked set sense s node) (width : Nat) :
    Candid set sense start (s.bound width node).1 ∧ Stocked set sense (s.bound width node).1 := by
  have hidles := Solver.Idles.compile s .relaxed width node
  unfold bound
  split
  · rename_i s' fault heq
    rw [heq] at hidles
    exact ⟨h.idles hidles, hstock.idles hidles⟩
  · rename_i s' c heq
    obtain ⟨hdraws, rfl⟩ := h.draws hpure heq
    rw [heq] at hidles
    have hcandid := h.idles hidles
    have hstock' := hstock.idles hidles
    have hpicked' := hpicked.idles hidles
    split
    · rename_i hexact
      exact ⟨hcandid.publish_best hpicked' hdraws (.inr hexact), hstock'.publish _ _⟩
    · have hpublished := hcandid.publish_bestExact hpicked' hdraws
      have hstock'' := hstock'.publish s'.diagram.bestExactValue s'.diagram.bestExactSolution
      obtain ⟨hdiagram, hevents⟩ :=
        s'.publish_frame s'.diagram.bestExactValue s'.diagram.bestExactSolution
      dsimp only
      split
      · exact hpublished.openCutset hstock'' (hpicked'.mono hevents) (hdraws.congr hdiagram)
          node.bound
      · exact ⟨hpublished, hstock''⟩

/-- Exploring a sub-problem. -/
theorem Solver.explore_candid (hpure : set.model.problem.Pure) (h : Candid set sense start s)
    (hstock : Stocked set sense s) (hpicked : Picked set sense s node) :
    Candid set sense start (s.explore node).1 ∧ Stocked set sense (s.explore node).1 := by
  unfold explore
  extract_lets width sense' noted
  have hnote : s.Idles noted := .note s _
  have hidles := hnote.trans (Solver.Idles.compile noted .restricted width node)
  split
  · rename_i s' fault heq
    rw [heq] at hidles
    exact ⟨h.idles hidles, hstock.idles hidles⟩
  · rename_i s' c heq
    obtain ⟨hdraws, rfl⟩ := (h.idles hnote).draws hpure heq
    rw [heq] at hidles
    have hpicked' := hpicked.idles hidles
    have hpublished := (h.idles hidles).publish_best hpicked' hdraws (.inl Kind.noConfusion)
    have hstock' := (hstock.idles hidles).publish s'.diagram.bestValue s'.diagram.bestSolution
    dsimp only
    split
    · exact ⟨hpublished, hstock'⟩
    · exact bound_candid hpure hpublished hstock' (hpicked'.mono (s'.publish_frame _ _).2) width

theorem Solver.visit_candid (hpure : set.model.problem.Pure) (h : Candid set sense start s)
    (hstock : Stocked set sense s) (hpicked : Picked set sense s node) :
    Candid set sense start (s.visit node).1 ∧ Stocked set sense (s.visit node).1 := by
  unfold visit
  split
  · split
    · have hidles : s.Idles { s with
          session := s.session.remember node.state node.depth ⟨node.value, true⟩ } :=
        ⟨rfl, rfl, rfl, rfl, Session.silent_remember _ _ _, fun _ hn => hn⟩
      exact explore_candid hpure (h.idles hidles) (hstock.idles hidles) (hpicked.idles hidles)
    · exact ⟨h.idles (.note s _), hstock.idles (.note s _)⟩
  · exact explore_candid hpure h hstock hpicked

end Explore

/-! ### Searching -/

section Search

variable [BEq σ] [BEq κ]

omit [BEq σ] [BEq κ] [Value V] in
theorem Solver.Idles.retireLayers (s : Solver σ κ V) : s.Idles s.retireLayers := by
  unfold Solver.retireLayers
  split
  · exact ⟨rfl, rfl, rfl, rfl, .of_events_eq rfl, fun _ hn => hn⟩
  · exact ⟨rfl, rfl, rfl, rfl, .refl _, fun _ hn => hn⟩

omit [BEq σ] [BEq κ] [Value V] in
/-- Taking a sub-problem from the queue. -/
theorem Solver.Idles.take {s : Solver σ κ V} {rest : List (Subproblem σ V)}
    (h : s.queue.entries = node :: rest) : s.Idles (s.take node rest) := by
  refine ⟨rfl, rfl, rfl, rfl, Session.silent_record nofun, fun n hn => ?_⟩
  rw [h]
  exact List.mem_cons_of_mem node hn

omit [BEq σ] [BEq κ] in
/-- **What is taken from the queue is reached.** -/
theorem Candid.nextMove (h : Candid set sense start s) (hstock : Stocked set sense s)
    (cutoff : Cutoff V) :
    Candid set sense start (s.nextMove cutoff).1 ∧ Stocked set sense (s.nextMove cutoff).1 ∧
      ∀ node, (s.nextMove cutoff).2 = .explore node →
        Picked set sense (s.nextMove cutoff).1 node := by
  have hretire := Solver.Idles.retireLayers s
  rcases s.nextMove_cases cutoff with ⟨_, heq⟩ | ⟨node, rest, hqueue, hcases⟩
  · rw [heq]
    exact ⟨h.idles hretire, hstock.idles hretire, nofun⟩
  · have hentries : s.retireLayers.queue.entries = node :: rest := by
      rw [Solver.retireLayers_eq_forget]
      exact hqueue
    have htaken := hretire.trans (.take hentries)
    rcases hcases with ⟨_, heq⟩ | ⟨_, heq⟩ | ⟨_, heq⟩
    · rw [heq]
      exact ⟨h.idles hretire, hstock.idles hretire, nofun⟩
    · rw [heq]
      have hcleared := htaken.trans (.clearQueue _)
      exact ⟨h.idles hcleared, hstock.idles hcleared, nofun⟩
    · rw [heq]
      have hidles : s.Idles (s.retireLayers.takeUp node rest) :=
        ⟨htaken.settings, htaken.sense, htaken.lower, htaken.solution, htaken.session,
          htaken.queue⟩
      refine ⟨h.idles hidles, hstock.idles hidles, fun node' hnode => ?_⟩
      obtain rfl := Move.explore.inj hnode
      -- The sub-problem leaves the queue, and the journal says so.
      refine ⟨fun hdef => ?_, .inr ⟨node, List.mem_cons_self, rfl⟩⟩
      have hmem : node ∈ s.queue.entries := by
        rw [hqueue]
        exact List.mem_cons_self
      exact (hstock node hmem hdef).mono fun _ => .mono fun _ => hidles.session.mem_events

variable [LawfulBEq σ] [Hashable σ] [Value.Lawful V]

/-- **A search is candid however long it goes on**, and however it ends. -/
theorem Solver.search_candid (hpure : set.model.problem.Pure) (cutoff : Cutoff V) (rounds : Nat)
    (h : Candid set sense start s) (hstock : Stocked set sense s) :
    Candid set sense start (search cutoff rounds s).1 := by
  induction rounds generalizing s with
  | zero => exact h
  | succ rounds ih =>
    obtain ⟨hcandid, hstock', hpicked⟩ := h.nextMove hstock cutoff
    unfold search
    split
    · rename_i heq
      rw [heq] at hcandid
      exact hcandid
    · rename_i heq
      rw [heq] at hcandid
      exact hcandid
    · rename_i s₁ node heq
      rw [heq] at hcandid hstock' hpicked
      obtain ⟨hvisited, hstock''⟩ := visit_candid hpure hcandid hstock' (hpicked node rfl)
      split
      · rename_i heq'
        rw [heq'] at hvisited
        exact hvisited
      · rename_i heq'
        rw [heq'] at hvisited hstock''
        exact ih hvisited hstock''

end Search

end DiagramSearch
