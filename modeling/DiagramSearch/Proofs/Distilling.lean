/-
# What a compilation takes from a session

A compilation asks the cache about nodes below its root only, and tells it about nodes from
its root on.  So the thresholds of lesser depths are nothing to it, and neither is the time
at which something was reported: a compilation that starts without them ends without them,
and finds the same.

* `Cache.trim`, `Event.untimed`: what is left out;
* `Session.essence`: a session without it, and the like of all that carries a session;
* `Request.compile_essence`: **compiling commutes with leaving it out**, whatever the model.
-/

import DiagramSearch.Proofs.Stacking

namespace DiagramSearch

open Diagram

variable {σ κ V : Type}

/-! ### Times -/

/-- The same numbers, but for the time. -/
def Statistics.untimed (s : Statistics V) : Statistics V := { s with elapsed := 0 }

/-- The same notice, but for the time. -/
def Notice.untimed : Notice σ V → Notice σ V
  | .searchOver stats => .searchOver stats.untimed
  | .compilationOver stats => .compilationOver stats.untimed
  | n => n

/-- The same event, but for the time. -/
def Event.untimed : Event σ V → Event σ V
  | .notice n => .notice n.untimed
  | .incumbent path stats => .incumbent path stats.untimed
  | e => e

theorem Event.untimed_untimed (e : Event σ V) : e.untimed.untimed = e.untimed := by
  cases e with
  | notice n => cases n <;> rfl
  | _ => rfl

/-! ### Thresholds of lesser depths -/

namespace Cache

variable {c : Cache σ V} {j k depth : Nat}

/-- The cache without the thresholds of depths less than a given one. -/
def trim (c : Cache σ V) (k : Nat) : Cache σ V :=
  ⟨c.layers.mapIdx fun depth layer => if depth < k then .empty else layer⟩

theorem ext_layers {c' : Cache σ V} (h : ∀ i : Nat, c.layers[i]? = c'.layers[i]?) : c = c' :=
  congrArg Cache.mk (Array.ext_getElem? h)

theorem getElem?_trim : (c.trim k).layers[depth]? =
    if depth < k then c.layers[depth]?.map fun _ => .empty else c.layers[depth]? := by
  change (c.layers.mapIdx _)[depth]? = _
  rw [Array.getElem?_mapIdx]
  split
  · rfl
  · exact Option.map_id'

theorem size_trim : (c.trim k).layers.size = c.layers.size := Array.size_mapIdx

theorem trim_trim (h : j ≤ k) : (c.trim j).trim k = c.trim k := by
  refine ext_layers fun i => ?_
  rw [getElem?_trim, getElem?_trim, getElem?_trim]
  split
  · split
    · exact Option.map_map ..
    · rfl
  · rw [if_neg (by omega)]

theorem trim_forget (h : depth < k) : (c.forget depth).trim k = c.trim k := by
  refine ext_layers fun i => ?_
  rw [getElem?_trim, getElem?_trim]
  change (if i < k then (c.layers.modify depth _)[i]?.map _ else (c.layers.modify depth _)[i]?) = _
  rw [Array.getElem?_modify]
  split
  · split
    · exact Option.map_map ..
    · rfl
  · rw [if_neg (by omega)]

theorem trim_foldl_forget (depths : List Nat) (h : ∀ depth ∈ depths, depth < k) :
    (depths.foldl Cache.forget c).trim k = c.trim k := by
  induction depths generalizing c with
  | nil => rfl
  | cons depth depths ih =>
    obtain ⟨hdepth, hdepths⟩ := List.forall_mem_cons.1 h
    rw [List.foldl_cons, ih hdepths, trim_forget hdepth]

variable [BEq σ] {state : σ}

theorem get?_trim (h : k ≤ depth) : (c.trim k).get? state depth = c.get? state depth := by
  rw [get?, get?, getElem?_trim, if_neg (by omega)]

theorem update_trim [Value V] (h : k ≤ depth) (t : Threshold V) :
    (c.trim k).update state depth t = (c.update state depth t).trim k := by
  refine ext_layers fun i => ?_
  rw [getElem?_trim]
  change ((c.trim k).layers.modify depth _)[i]? =
    if i < k then (c.layers.modify depth _)[i]?.map _ else (c.layers.modify depth _)[i]?
  rw [Array.getElem?_modify, Array.getElem?_modify, getElem?_trim]
  split
  · rw [if_neg (by omega), if_neg (by omega)]
  · rfl

end Cache

/-! ### What matters of a session -/

namespace Session

/-- A session without the thresholds of lesser depths, and without times. -/
def essence (k : Nat) (s : Session σ κ V) : Session σ κ V :=
  { s with cache := s.cache.trim k, events := s.events.map Event.untimed }

variable {s : Session σ κ V} {k : Nat}

theorem essence_essence {j : Nat} (h : j ≤ k) : (s.essence j).essence k = s.essence k := by
  have hevents : (s.events.map Event.untimed).map Event.untimed = s.events.map Event.untimed := by
    rw [List.map_map]
    exact List.map_congr_left fun e _ => e.untimed_untimed
  unfold essence
  dsimp only
  rw [Cache.trim_trim h, hevents]

theorem resume_essence (after : Session σ κ V) (j : Nat) :
    (s.essence k).resume (after.essence j) = (s.resume after).essence k := by
  unfold resume
  simp only [essence, List.filter_map, List.map_append]
  refine congrArg (fun new => Session.mk _ _ _ (new ++ _)) (congrArg (List.map Event.untimed) ?_)
  exact List.filter_congr fun e _ => by cases e <;> rfl

/-- A compilation on the side starts with nothing anyway. -/
theorem essence_aside (s : Session σ κ V) : s.aside.essence k = s.aside := rfl

variable [BEq σ] [Value V] {depth : Nat}

theorem remember_essence (h : k ≤ depth) (state : σ) (t : Threshold V) :
    (s.essence k).remember state depth t = (s.remember state depth t).essence k := by
  have hcache : (s.essence k).cache.update state depth t =
      (s.cache.update state depth t).trim k := Cache.update_trim h t
  unfold remember
  dsimp only
  rw [hcache, Cache.get?_trim h]
  rfl

theorem check_essence [BEq κ] (rel : Option (Dominance σ κ)) (state : σ) (depth : Nat)
    (value : V) : (s.essence k).check rel state depth value =
      ((s.check rel state depth value).1, (s.check rel state depth value).2.essence k) := by
  cases rel <;> rfl

end Session

/-- A selection of which only the essence of the session is left; the same below. -/
def Selection.essence (k : Nat) (s : Selection σ κ V) : Selection σ κ V :=
  { s with session := s.session.essence k }

def Fitted.essence (k : Nat) (f : Fitted σ κ V) : Fitted σ κ V :=
  { f with session := f.session.essence k }

def Expansion.essence (k : Nat) (x : Expansion σ κ V) : Expansion σ κ V :=
  { x with session := x.session.essence k }

def Unrolled.essence (k : Nat) (u : Unrolled σ κ V) : Unrolled σ κ V :=
  { u with session := u.session.essence k }

def Compiled.essence (k : Nat) (c : Compiled σ κ V) : Compiled σ κ V :=
  { c with session := c.session.essence k }

/-- An audit to which lesser depths and times are nothing. -/
def Audit.Blind (k : Nat) (audit : Audit σ κ V) : Prop :=
  ∀ session m parts, audit (session.essence k) m parts =
    ((audit session m parts).1.essence k, (audit session m parts).2)

/-! ### Unrolling -/

section Unrolling

variable [BEq σ] [BEq κ] [Value V] {k : Nat} {audit : Audit σ κ V}

theorem sift_essence (rel : Option (Dominance σ κ)) (cs : List (Candidate σ V))
    (layer : Layer σ V) (session : Session σ κ V) :
    sift rel cs layer (session.essence k) = (sift rel cs layer session).essence k := by
  induction cs generalizing layer session with
  | nil => rfl
  | cons c cs ih =>
    unfold sift
    split
    · rename_i n _
      split
      · rw [Session.check_essence]
        cases session.check rel n.state n.depth n.longest with
        | mk verdict after =>
          cases verdict with
          | some threshold => exact ih _ _
          | none =>
            exact congrArg (fun s : Selection σ κ V => { s with kept := c :: s.kept }) (ih _ _)
      · exact congrArg (fun s : Selection σ κ V => { s with kept := c :: s.kept }) (ih _ _)
    · exact ih _ _

/-- The cache is asked about nodes of the pending layer, and not about the root. -/
theorem select_essence (r : Request σ κ V) (session : Session σ κ V) (isRoot : Bool)
    {pending : Layer σ V} (h : ∀ n ∈ pending, k ≤ n.depth) :
    select r (session.essence k) isRoot pending = (select r session isRoot pending).essence k := by
  have hscreen : pending.map (fun n => n.screen (session.essence k).cache) =
      pending.map fun n => n.screen session.cache := by
    refine Array.map_congr_left fun n hn => ?_
    unfold Node.screen
    rw [show (session.essence k).cache = session.cache.trim k from rfl, Cache.get?_trim (h n hn)]
  unfold select
  rw [hscreen]
  exact sift_essence _ _ _ _

omit [BEq κ] in
theorem mergeExcess_essence (haudit : audit.Blind k) (r : Request σ κ V) (path : Path)
    (above : List (Layer σ V)) (width : Nat) (s : Selection σ κ V) :
    mergeExcess audit r path above width (s.essence k) =
      (mergeExcess audit r path above width s).essence k := by
  have hverdict : ∀ keep sorted count m parts,
      audit (((s.session.essence k).record (.sorted r.kind keep sorted)).note (.merged count))
        m parts = ((audit ((s.session.record (.sorted r.kind keep sorted)).note (.merged count))
          m parts).1.essence k, (audit ((s.session.record (.sorted r.kind keep sorted)).note
            (.merged count)) m parts).2) :=
    fun keep sorted count m parts =>
      haudit ((s.session.record (.sorted r.kind keep sorted)).note (.merged count)) m parts
  unfold mergeExcess
  dsimp only [Selection.essence]
  split
  · rw [hverdict]
    rfl
  · rfl

omit [BEq κ] in
theorem fit_essence (haudit : audit.Blind k) (r : Request σ κ V) (path : Path)
    (above : List (Layer σ V)) (s : Selection σ κ V) :
    fit audit r path above (s.essence k) = (fit audit r path above s).essence k := by
  obtain ⟨session, layer, kept⟩ := s
  change fit audit r path above ⟨session.essence k, layer, kept⟩ = _
  unfold fit
  dsimp only
  split
  · rfl
  · split
    · rfl
    · rfl
    · split
      · exact mergeExcess_essence haudit r path above _ ⟨session, layer, kept⟩
      · rfl

theorem settleLayer_essence (haudit : audit.Blind k) (r : Request σ κ V)
    (session : Session σ κ V) {d : Diagram σ V} (h : ∀ n ∈ d.pending, k ≤ n.depth) :
    settleLayer audit r (session.essence k) d = (settleLayer audit r session d).essence k := by
  unfold settleLayer
  dsimp only
  rw [select_essence r session _ h]
  exact fit_essence haudit _ _ _ _

variable [Hashable σ]

omit [BEq σ] [BEq κ] [Value V] [Hashable σ] in
/-- What each step commutes with, a pass made of such steps commutes with. -/
theorem Expansion.foldl_essence {α : Type} {step : Expansion σ κ V → α → Expansion σ κ V}
    (h : ∀ x a, step (x.essence k) a = (step x a).essence k) (as : List α)
    (x : Expansion σ κ V) : as.foldl step (x.essence k) = (as.foldl step x).essence k :=
  List.foldl_hom (Expansion.essence k) h

omit [BEq κ] in
theorem Expansion.branch_essence (problem : Problem σ V) (checks : Checks) (source : Nat)
    (parent : Node σ V) (x : Expansion σ κ V) (d : Decision) :
    branch problem checks source parent (x.essence k) d =
      (branch problem checks source parent x d).essence k := by
  simp only [branch, apply_ite (Expansion.essence k)]
  rfl

omit [BEq κ] in
theorem Expansion.expand_essence (r : Request σ κ V) (free : Variables) (var : Nat)
    (x : Expansion σ κ V) (position : Nat) :
    expand r free var (x.essence k) position = (expand r free var x position).essence k := by
  obtain ⟨session, layer, pending, fault⟩ := x
  change expand r free var ⟨session.essence k, layer, pending, fault⟩ position = _
  unfold expand
  dsimp only
  split
  · rename_i node _
    split
    · rfl
    · exact foldl_essence (branch_essence r.model.problem r.checks position node) _
        ⟨session, _, pending, none⟩
  · rfl

omit [BEq κ] in
theorem Fitted.expansion_essence (f : Fitted σ κ V) (r : Request σ κ V) (free : Variables)
    (index var : Nat) :
    (f.essence k).expansion r free index var = (f.expansion r free index var).essence k :=
  Expansion.foldl_essence (Expansion.expand_essence r free var) f.kept
    ⟨f.reported index, f.layer, #[], none⟩

theorem unrollRound_essence (haudit : audit.Blind k) (r : Request σ κ V) (free : Variables)
    (session : Session σ κ V) {d : Diagram σ V} (h : ∀ n ∈ d.pending, k ≤ n.depth)
    {after : Variables → Session σ κ V → Diagram σ V → Unrolled σ κ V}
    (hafter : ∀ v, r.branching free (d.pending.toList.map (·.state)) = some v → ∀ x,
      (settleLayer audit r session d).expansion r free d.layers.length v = x →
        after (free.erase v) (x.session.essence k) (d.expanded (settleLayer audit r session d) x) =
          (after (free.erase v) x.session
            (d.expanded (settleLayer audit r session d) x)).essence k) :
    unrollRound audit r free (session.essence k) d after =
      (unrollRound audit r free session d after).essence k := by
  unfold unrollRound
  rw [settleLayer_essence haudit r session h]
  generalize settleLayer audit r session d = f at hafter
  have hfault : (f.essence k).fault = f.fault := rfl
  have hkept : (f.essence k).kept = f.kept := rfl
  simp only [hfault, hkept, f.expansion_essence]
  cases f.fault with
  | some fault => rfl
  | none =>
    cases hv : r.branching free (d.pending.toList.map (·.state)) with
    | none => cases f.kept <;> rfl
    | some v =>
      have hnext := hafter v hv _ rfl
      cases f.kept with
      | nil => rfl
      | cons first rest =>
        dsimp only
        generalize f.expansion r free d.layers.length v = x at hnext ⊢
        have hxfault : (x.essence k).fault = x.fault := rfl
        simp only [hxfault]
        cases x.fault with
        | some fault => rfl
        | none => exact hnext

/-- **Unrolling asks only about nodes that are deep enough.** -/
theorem unroll_essence (haudit : audit.Blind k) (r : Request σ κ V) {rounds : Nat}
    {free : Variables} (session : Session σ κ V) {d : Diagram σ V} (hrounds : free.size ≤ rounds)
    (h : ∀ n ∈ d.pending, k ≤ n.depth) : unroll audit r rounds free (session.essence k) d =
      (unroll audit r rounds free session d).essence k := by
  induction rounds generalizing free session d with
  | zero =>
    rw [unroll_eq_round _ _ _ _ hrounds, unroll_eq_round _ _ _ _ hrounds]
    refine unrollRound_essence haudit r free session h fun v hv => ?_
    exact absurd (Branching.size_pos_of_some hv) (Nat.not_lt.2 hrounds)
  | succ rounds ih =>
    rw [unroll_eq_round _ _ _ _ hrounds, unroll_eq_round _ _ _ _ hrounds]
    refine unrollRound_essence haudit r free session h fun v _ x hx => ?_
    have hsize := Variables.size_erase_add_one v.2
    refine ih x.session (by omega) ?_
    subst hx
    refine Fitted.expansion_depth (p := (k ≤ ·)) (fun n hn => ?_) free d.layers.length
    exact (settleLayer_depth (p := (k ≤ ·)) h n hn).trans (Nat.le_succ _)

end Unrolling

/-! ### Evaluating -/

/-- No node of these layers is less deep than that. -/
def Deep (k : Nat) (layers : List (Layer σ V)) : Prop :=
  ∀ layer ∈ lineages layers, ∀ m ∈ layer, k ≤ m.depth

namespace Deep

variable {k : Nat} {layer : Layer σ V} {layers layers' above : List (Layer σ V)}

theorem congr (h : Deep k layers) (hsame : lineages layers' = lineages layers) : Deep k layers' :=
  fun l hl => h l (hsame ▸ hl)

theorem head (h : Deep k (layer :: above)) : ∀ n ∈ layer, k ≤ n.depth :=
  fun n hn => h _ List.mem_cons_self n.lineage (Array.mem_map_of_mem hn)

theorem tail (h : Deep k (layer :: above)) : Deep k above :=
  fun l hl => h l (List.mem_cons_of_mem _ hl)

end Deep

section Evaluating

variable [BEq σ] [Value V] {k : Nat}

omit [BEq σ] in
/-- What is marked in a diagram is not where its nodes come from. -/
theorem marked_lineages (d : Diagram σ V) (kind : Kind) (cutset : CutsetKind) (lift : Bool) :
    lineages (if lift then ((d.markBest.markExact kind).markCutset kind cutset).markBounds
      else (d.markBest.markExact kind).markCutset kind cutset).layers = lineages d.layers := by
  have hcut : lineages ((d.markBest.markExact kind).markCutset kind cutset).layers =
      lineages d.layers := by
    rw [← layers_marked d kind]
    exact lineage_outlasts.markCutset _ kind cutset
  split
  · obtain ⟨_, heq, hsame⟩ :=
      lineage_outlasts.markBounds ((d.markBest.markExact kind).markCutset kind cutset)
    rw [heq]
    exact hsame.trans hcut
  · exact hcut

theorem Layer.teach_essence {layer : Layer σ V} (h : ∀ n ∈ layer, k ≤ n.depth)
    (lasting : Node σ V → Bool) (session : Session σ κ V) :
    layer.teach lasting (session.essence k) = (layer.teach lasting session).essence k := by
  unfold Layer.teach
  rw [← Array.foldl_toList, ← Array.foldl_toList]
  have hnodes : ∀ n ∈ layer.toList, k ≤ n.depth := fun n hn => h n (Array.mem_toList_iff.1 hn)
  generalize layer.toList = nodes at hnodes
  induction nodes generalizing session with
  | nil => rfl
  | cons n nodes ih =>
    obtain ⟨hn, hnodes⟩ := List.forall_mem_cons.1 hnodes
    rw [List.foldl_cons, List.foldl_cons, ← ih _ hnodes]
    refine congrArg (nodes.foldl _) ?_
    split
    · split
      · exact Session.remember_essence hn _ _
      · rfl
    · rfl

theorem sweepLayers_essence (best : V) (lasting : Nat → Node σ V → Bool)
    (session : Session σ κ V) {layer : Layer σ V} {above : List (Layer σ V)}
    (h : Deep k (layer :: above)) :
    sweepLayers best lasting (session.essence k) layer above =
      ((sweepLayers best lasting session layer above).1.essence k,
        (sweepLayers best lasting session layer above).2) := by
  have hsettled : Array.map Node.lineage (layer.map (Node.settle best)) = layer.map Node.lineage :=
    Layer.lineage_map (lineage_outlasts.settle best) layer
  induction above generalizing session layer with
  | nil =>
    have hdeep : Deep k [layer.map (Node.settle best)] := h.congr (congrArg (· :: _) hsettled)
    rw [sweepLayers, sweepLayers, Layer.teach_essence hdeep.head]
  | cons parents above ih =>
    have hdeep : Deep k (layer.map (Node.settle best) :: parents :: above) :=
      h.congr (congrArg (· :: _) hsettled)
    have hparents :
        Array.map Node.lineage ((layer.map (Node.settle best)).foldl Node.inform parents) =
          parents.map Node.lineage :=
      Layer.map_foldl_nodes lineage_outlasts.inform _ parents
    rw [sweepLayers, sweepLayers, Layer.teach_essence hdeep.head]
    dsimp only
    rw [ih _ (hdeep.tail.congr (congrArg (· :: _) hparents))
      (Layer.lineage_map (lineage_outlasts.settle best) _)]

theorem Diagram.sweep_essence {d : Diagram σ V} (h : Deep k d.layers) (r : Request σ κ V)
    (session : Session σ κ V) : d.sweep r (session.essence k) =
      ((d.sweep r session).1.essence k, (d.sweep r session).2) := by
  unfold sweep
  cases hd : d.layers with
  | nil => rfl
  | cons last above =>
    rw [hd] at h
    cases d.bestExactValue with
    | none =>
      dsimp only
      rw [sweepLayers_essence _ _ _ h]
    | some value =>
      dsimp only
      rw [sweepLayers_essence _ _ _
        (h.congr (congrArg (· :: _) (Layer.lineage_map (fun n => ?_) last)))]
      split <;> rfl

end Evaluating

namespace Request

variable [BEq σ] [Hashable σ] [BEq κ] [Value V] {k : Nat}

omit [Hashable σ] [BEq κ] in
/-- **Evaluating tells only about nodes that are deep enough.** -/
theorem evaluate_essence (r : Request σ κ V) (session : Session σ κ V) {d : Diagram σ V}
    (h : Deep k d.layers) :
    r.evaluate (session.essence k) d = (r.evaluate session d).essence k := by
  unfold evaluate
  dsimp only
  have hmarked :=
    h.congr (marked_lineages d r.kind r.cutset (r.kind == .relaxed || r.checks.watches))
  generalize (if r.kind == .relaxed || r.checks.watches then
    ((d.markBest.markExact r.kind).markCutset r.kind r.cutset).markBounds
    else (d.markBest.markExact r.kind).markCutset r.kind r.cutset) = marked at hmarked ⊢
  split
  · rfl
  · rw [Diagram.sweep_essence hmarked]
    split
    · rfl
    · rfl

/-- No node of an unrolled diagram is less deep than its root. -/
theorem unroll_deep (r : Request σ κ V) {audit : Audit σ κ V} {session : Session σ κ V}
    (hok : (r.unroll audit session).fault = none) :
    Deep r.residual.depth (r.unroll audit session).diagram.layers := by
  obtain ⟨_, _, _, hrounds, hlast⟩ := r.unroll_lastRound hok
  rw [hlast.eq]
  exact fun layer hlayer m hm => hrounds.stacked.settle.le_depth hlayer hm

theorem compileWith_essence (r : Request σ κ V) {audit : Audit σ κ V} (haudit : audit.Blind k)
    (session : Session σ κ V) (h : k ≤ r.residual.depth) :
    r.compileWith audit (session.essence k) = (r.compileWith audit session).essence k := by
  have hunroll : r.unroll audit (session.essence k) = (r.unroll audit session).essence k := by
    refine unroll_essence haudit r session (Nat.le_refl _) fun n hn => ?_
    obtain rfl := Array.mem_singleton.1 hn
    exact h
  have hdeep : (r.unroll audit session).fault = none →
      Deep r.residual.depth (r.unroll audit session).diagram.layers := r.unroll_deep
  unfold compileWith
  rw [hunroll]
  generalize r.unroll audit session = u at hdeep
  obtain ⟨session', d, fault⟩ := u
  cases fault with
  | some fault => rfl
  | none => exact r.evaluate_essence session' fun layer hlayer m hm =>
      h.trans (hdeep rfl layer hlayer m hm)

/-! ### Audits -/

/-- Compiling on the side starts with nothing, and leaves notices without times. -/
theorem worth_essence (r : Request σ κ V) (session : Session σ κ V) (s : Subproblem σ V) :
    r.worth (session.essence k) s =
      ((r.worth session s).1, (r.worth session s).2.essence k) := by
  have hblind : Audit.Blind 0 fun (session : Session σ κ V) _ _ => (session, none) :=
    fun _ _ _ => rfl
  have hcompiled := (r.exactly s).compileWith_essence hblind session.aside (Nat.zero_le _)
  rw [Session.essence_aside] at hcompiled
  unfold worth
  dsimp only
  rw [show (session.essence k).aside = session.aside from rfl, ← Session.resume_essence _ 0]
  generalize (r.exactly s).compileWith _ session.aside = c at hcompiled
  exact congrArg (fun after => (c.diagram.bestValue, (session.essence k).resume after))
    (congrArg Compiled.session hcompiled)

theorem findUnsound_essence (r : Request σ κ V) (merged : Subproblem σ V) (relaxed : Option V)
    (session : Session σ κ V) (parts : List (Subproblem σ V)) :
    r.findUnsound merged relaxed (session.essence k) parts =
      ((r.findUnsound merged relaxed session parts).1.essence k,
        (r.findUnsound merged relaxed session parts).2) := by
  induction parts generalizing session with
  | nil => rfl
  | cons s rest ih =>
    unfold findUnsound
    rw [worth_essence]
    generalize r.worth session s = found
    obtain ⟨exact, after⟩ := found
    dsimp only
    split
    · exact ih _
    · rfl
    · split
      · rfl
      · exact ih _

theorem audit_blind (r : Request σ κ V) (k : Nat) : r.audit.Blind k := by
  intro session m parts
  unfold audit
  split
  · rw [worth_essence]
    exact r.findUnsound_essence m _ _ parts
  · rfl

/-- **Compiling leaves lesser depths and times aside.** -/
theorem compile_essence (r : Request σ κ V) (session : Session σ κ V)
    (h : k ≤ r.residual.depth) :
    r.compile (session.essence k) = (r.compile session).essence k :=
  r.compileWith_essence (r.audit_blind k) session h

end Request
end DiagramSearch
