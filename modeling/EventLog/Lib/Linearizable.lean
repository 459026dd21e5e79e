import EventLog.Lib.Simulation
import Mathlib.Data.List.Nodup
import Mathlib.Logic.Function.Basic

/-!
# Linearizability

A shared object is called by any number of clients at once.  What they see is a history:
the calls made and the answers returned, in the order in which this happened.  A history is
linearizable if all answered calls, and some of the others, can be put in one order in which
they are a run of the sequential object, and which keeps any two calls that did not overlap
in the order in which they were made.

* `Linearizes` is the definition, for a sequential object given as a relation.
* `AtomicStep` is the object as its clients may think of it: a call starts, takes effect at
  one moment, and returns.  The answer may be settled after the effect, as long as it is one
  the effect allows.
* `AtomicRun.linearizes` says that this is enough: a system whose histories are histories of
  the atomic object is linearizable.
-/

namespace EventLog.Lib

variable {A Op Reply : Type*}

/-! ## Histories -/

/-- What shows of a call: it is made, and it is answered.  Calls are numbered. -/
inductive CallEvent (Op Reply : Type*) where
  | invoke (call : Nat) (op : Op)
  | respond (call : Nat) (reply : Reply)
  deriving DecidableEq

/-- A call in its place of a sequential order, with its answer. -/
structure Placed (Op Reply : Type*) where
  call : Nat
  op : Op
  reply : Reply

/-- `l` is a sequential order of the calls of `h` that leads from `a` to `a'`. -/
structure Linearizes (Step : A → Op → A → Reply → Prop) (a : A)
    (h : List (CallEvent Op Reply)) (l : List (Placed Op Reply)) (a' : A) : Prop where
  /-- The order is a run of the sequential object. -/
  legal : Behaves Step a (l.map Placed.op) a' (l.map Placed.reply)
  once : (l.map Placed.call).Nodup
  invoked : ∀ x ∈ l, .invoke x.call x.op ∈ h
  /-- Every answered call has a place, with the answer it got. -/
  answered : ∀ c r, .respond c r ∈ h → ∃ op, ⟨c, op, r⟩ ∈ l
  /-- A call answered before another one was made comes before it. -/
  realTime : ∀ c r c' op, List.Sublist [.respond c r, .invoke c' op] h → ∀ x ∈ l, ∀ y ∈ l,
    x.call = c → y.call = c' → List.Sublist [x, y] l

/-! ## The atomic object -/

/-- What has become of a call. -/
inductive Phase (A Op : Type*) where
  | fresh
  | pending (op : Op)
  /-- It took effect, which led from `before` to `after`. -/
  | applied (op : Op) (before after : A)
  | returned

/-- The state of the sequential object, and where the calls stand. -/
structure AtomicState (A Op : Type*) where
  state : A
  phase : Nat → Phase A Op

/-- A call moves on. -/
def AtomicState.setPhase (s : AtomicState A Op) (c : Nat) (p : Phase A Op) : AtomicState A Op :=
  { s with phase := Function.update s.phase c p }

/-- One step of the atomic object, with what shows of it. -/
inductive AtomicStep (Step : A → Op → A → Reply → Prop) (s : AtomicState A Op) :
    List (CallEvent Op Reply) → AtomicState A Op → Prop where
  | idle : AtomicStep Step s [] s
  | invoke {c} (op : Op) : s.phase c = .fresh →
      AtomicStep Step s [.invoke c op] (s.setPhase c (.pending op))
  /-- A pending call takes effect; some answer must fit. -/
  | apply {c op} (after : A) (r : Reply) : s.phase c = .pending op → Step s.state op after r →
      AtomicStep Step s [] { s.setPhase c (.applied op s.state after) with state := after }
  | respond {c op before after} (r : Reply) : s.phase c = .applied op before after →
      Step before op after r → AtomicStep Step s [.respond c r] (s.setPhase c .returned)

/-- The runs of the atomic object from `a`, with the histories they show. -/
inductive AtomicRun (Step : A → Op → A → Reply → Prop) (a : A) :
    List (CallEvent Op Reply) → AtomicState A Op → Prop where
  | init : AtomicRun Step a [] ⟨a, fun _ => .fresh⟩
  | step {h s es s'} : AtomicRun Step a h s → AtomicStep Step s es s' →
      AtomicRun Step a (h ++ es) s'

/-! ## From effects to an order

The calls in the order in which they took effect are the sequential order. -/

/-- The moment at which a call took effect. -/
structure Point (A Op : Type*) where
  call : Nat
  op : Op
  before : A
  after : A

/-- Each effect starts in the state the one before it left. -/
def Chained : A → List (Point A Op) → A → Prop
  | a, [], a' => a = a'
  | a, p :: ps, a' => p.before = a ∧ Chained p.after ps a'

theorem Chained.concat {a a' : A} {ps : List (Point A Op)} (h : Chained a ps a')
    (c : Nat) (op : Op) (after : A) : Chained a (ps ++ [⟨c, op, a', after⟩]) after := by
  induction ps generalizing a with
  | nil => exact ⟨h.symm, rfl⟩
  | cons p ps ih => exact ⟨h.1, ih h.2⟩

/-- A point with the answer its call got, or might get. -/
def Point.placed (reply : Nat → Reply) (p : Point A Op) : Placed Op Reply :=
  ⟨p.call, p.op, reply p.call⟩

theorem Chained.behaves {Step : A → Op → A → Reply → Prop} {reply : Nat → Reply} {a a' : A}
    {ps : List (Point A Op)} (h : Chained a ps a')
    (hlegal : ∀ p ∈ ps, Step p.before p.op p.after (reply p.call)) :
    Behaves Step a ((ps.map (Point.placed reply)).map Placed.op) a'
      ((ps.map (Point.placed reply)).map Placed.reply) := by
  -- on the points: each starts where the one before ended
  induction ps generalizing a with
  | nil =>
    obtain rfl : a = a' := h
    exact .nil a
  | cons p ps ih =>
    obtain ⟨rfl, hrest⟩ := h
    exact .cons (hlegal p List.mem_cons_self)
      (ih hrest fun q hq => hlegal q (List.mem_cons_of_mem _ hq))

/-- What the history and the points say of a call in its phase. -/
def Phase.Fits (h : List (CallEvent Op Reply)) (ps : List (Point A Op)) (c : Nat) :
    Phase A Op → Prop
  | .fresh => (∀ op, .invoke c op ∉ h) ∧ ∀ p ∈ ps, p.call ≠ c
  | .pending op => .invoke c op ∈ h ∧ ∀ p ∈ ps, p.call ≠ c
  | .applied op before after => ⟨c, op, before, after⟩ ∈ ps ∧ ∀ r, .respond c r ∉ h
  | .returned => True

/-- The points, in their order, explain the history so far. -/
structure Explains (Step : A → Op → A → Reply → Prop) (a : A) (h : List (CallEvent Op Reply))
    (s : AtomicState A Op) (ps : List (Point A Op)) (reply : Nat → Reply) : Prop where
  chained : Chained a ps s.state
  once : (ps.map Point.call).Nodup
  legal : ∀ p ∈ ps, Step p.before p.op p.after (reply p.call)
  invoked : ∀ p ∈ ps, .invoke p.call p.op ∈ h
  answered : ∀ c r, .respond c r ∈ h → reply c = r ∧ ∃ p ∈ ps, p.call = c
  realTime : ∀ c r c' op, List.Sublist [.respond c r, .invoke c' op] h → ∀ p ∈ ps, ∀ q ∈ ps,
    p.call = c → q.call = c' → List.Sublist [p, q] ps
  phases : ∀ c, (s.phase c).Fits h ps c

/-- Two elements of an extended list, in order: both are old or the second one is new. -/
theorem pair_sublist_concat {α : Type*} {x y z : α} {l : List α}
    (h : List.Sublist [x, y] (l ++ [z])) : List.Sublist [x, y] l ∨ x ∈ l ∧ y = z := by
  obtain ⟨l₁, l₂, heq, h₁, h₂⟩ := List.sublist_append_iff.mp h
  rcases List.sublist_singleton.mp h₂ with rfl | rfl
  · rw [List.append_nil] at heq
    exact .inl (heq ▸ h₁)
  · obtain ⟨hx, hy⟩ := List.append_inj' (show [x] ++ [y] = l₁ ++ [z] from heq) rfl
    exact .inr ⟨h₁.subset (hx ▸ List.mem_singleton_self x), List.singleton_inj.mp hy⟩

/-- An event of another call does not show. -/
theorem Phase.Fits.concat {h : List (CallEvent Op Reply)} {ps : List (Point A Op)} {c : Nat}
    {p : Phase A Op} (hp : p.Fits h ps c) {e : CallEvent Op Reply}
    (hinvoke : ∀ op, e ≠ .invoke c op) (hrespond : ∀ r, e ≠ .respond c r) :
    p.Fits (h ++ [e]) ps c := by
  have hmem : ∀ x, x ≠ e → x ∉ h → x ∉ h ++ [e] := fun x hne hx hin => by
    rcases List.mem_append.mp hin with hin | hin
    · exact hx hin
    · exact hne (List.mem_singleton.mp hin)
  -- an event of another call is neither its invocation nor its answer
  cases p with
  | fresh => exact ⟨fun op => hmem _ (hinvoke op).symm (hp.1 op), hp.2⟩
  | pending op => exact ⟨List.mem_append_left _ hp.1, hp.2⟩
  | applied op before after => exact ⟨hp.1, fun r => hmem _ (hrespond r).symm (hp.2 r)⟩
  | returned => trivial

/-- A point of another call does not show. -/
theorem Phase.Fits.concat_point {h : List (CallEvent Op Reply)} {ps : List (Point A Op)}
    {c : Nat} {p : Phase A Op} (hp : p.Fits h ps c) {q : Point A Op} (hq : q.call ≠ c) :
    p.Fits h (ps ++ [q]) c := by
  have hall : (∀ p ∈ ps, p.call ≠ c) → ∀ p ∈ ps ++ [q], p.call ≠ c := fun hps p hmem => by
    rcases List.mem_append.mp hmem with hmem | hmem
    · exact hps p hmem
    · rw [List.mem_singleton.mp hmem]
      exact hq
  cases p with
  | fresh => exact ⟨hp.1, hall hp.2⟩
  | pending op => exact ⟨hp.1, hall hp.2⟩
  | applied op before after => exact ⟨List.mem_append_left _ hp.1, hp.2⟩
  | returned => trivial

namespace Explains

variable {Step : A → Op → A → Reply → Prop} {a : A} {h : List (CallEvent Op Reply)}
  {s : AtomicState A Op} {ps : List (Point A Op)} {reply : Nat → Reply} {c : Nat}

theorem fits (hs : Explains Step a h s ps reply) {p : Phase A Op} (hp : s.phase c = p) :
    p.Fits h ps c :=
  hp ▸ hs.phases c

/-- A call that was answered has taken effect. -/
theorem exists_point (hs : Explains Step a h s ps reply) {r : Reply}
    (hr : .respond c r ∈ h) : ∃ p ∈ ps, p.call = c :=
  (hs.answered c r hr).2

theorem invoke (hs : Explains Step a h s ps reply) (op : Op) (hc : s.phase c = .fresh) :
    Explains Step a (h ++ [.invoke c op]) (s.setPhase c (.pending op)) ps reply where
  chained := hs.chained
  once := hs.once
  legal := hs.legal
  invoked p hp := List.mem_append_left _ (hs.invoked p hp)
  answered c' r hr := by
    rcases List.mem_append.mp hr with hr | hr
    · exact hs.answered c' r hr
    · cases List.mem_singleton.mp hr
  realTime c₁ r c₂ op' hsub p hp q hq hpc hqc := by
    rcases pair_sublist_concat hsub with hsub | ⟨-, heq⟩
    · exact hs.realTime c₁ r c₂ op' hsub p hp q hq hpc hqc
    · -- a call that was just made has no point
      obtain ⟨rfl, -⟩ := CallEvent.invoke.inj heq
      exact absurd hqc ((hs.fits hc).2 q hq)
  phases c' := by
    by_cases hc' : c' = c
    · subst hc'
      simp only [AtomicState.setPhase, Function.update_self]
      exact ⟨List.mem_append_right _ (List.mem_singleton_self _), (hs.fits hc).2⟩
    · simp only [AtomicState.setPhase, Function.update_of_ne hc']
      refine (hs.phases c').concat (fun op' heq => hc' ?_) fun r heq => by cases heq
      exact (CallEvent.invoke.inj heq).1.symm

theorem apply (hs : Explains Step a h s ps reply) {op : Op} (after : A) (r : Reply)
    (hc : s.phase c = .pending op) (hstep : Step s.state op after r) :
    Explains Step a h { s.setPhase c (.applied op s.state after) with state := after }
      (ps ++ [⟨c, op, s.state, after⟩]) (Function.update reply c r) := by
  obtain ⟨hinvoked, hnone⟩ := hs.fits hc
  -- a call that was answered has a point, and this one has none
  have hunanswered : ∀ r', .respond c r' ∉ h := fun r' hr' => by
    obtain ⟨p, hp, hpc⟩ := hs.exists_point hr'
    exact hnone p hp hpc
  refine ⟨hs.chained.concat c op after, ?_, fun p hp => ?_, fun p hp => ?_, fun c' r' hr' => ?_,
    fun c₁ r' c₂ op' hsub p hp q hq hpc hqc => ?_, fun c' => ?_⟩
  · rw [List.map_append, List.nodup_append]
    refine ⟨hs.once, List.nodup_singleton _, fun x hx y hy hxy => ?_⟩
    obtain ⟨p, hp, rfl⟩ := List.mem_map.mp hx
    exact hnone p hp (hxy.trans (List.mem_singleton.mp hy))
  · -- the new point's answer is the one given here, the others keep theirs
    rcases List.mem_append.mp hp with hp | hp
    · rw [Function.update_of_ne (hnone p hp)]
      exact hs.legal p hp
    · obtain rfl := List.mem_singleton.mp hp
      rw [Function.update_self]
      exact hstep
  · rcases List.mem_append.mp hp with hp | hp
    · exact hs.invoked p hp
    · obtain rfl := List.mem_singleton.mp hp
      exact hinvoked
  · -- an answer that was given belongs to another call
    obtain ⟨hreply, p, hp, hpc⟩ := hs.answered c' r' hr'
    have hne : c' ≠ c := fun heq => hnone p hp (hpc.trans heq)
    exact ⟨(Function.update_of_ne hne _ _).trans hreply, p, List.mem_append_left _ hp, hpc⟩
  · -- the first of the two calls was answered, so its point is an old one
    have hanswered : .respond c₁ r' ∈ h := hsub.subset List.mem_cons_self
    have hp' : p ∈ ps := by
      rcases List.mem_append.mp hp with hp | hp
      · exact hp
      · obtain rfl := List.mem_singleton.mp hp
        obtain rfl : c = c₁ := hpc
        exact absurd hanswered (hunanswered r')
    rcases List.mem_append.mp hq with hq | hq
    · exact (hs.realTime c₁ r' c₂ op' hsub p hp' q hq hpc hqc).trans (List.sublist_append_left _ _)
    · obtain rfl := List.mem_singleton.mp hq
      exact (List.singleton_sublist.mpr hp').append (List.Sublist.refl _)
  · by_cases hc' : c' = c
    · subst hc'
      simp only [AtomicState.setPhase, Function.update_self]
      exact ⟨List.mem_append_right _ (List.mem_singleton_self _), hunanswered⟩
    · simp only [AtomicState.setPhase, Function.update_of_ne hc']
      exact (hs.phases c').concat_point fun heq => hc' heq.symm

theorem respond (hs : Explains Step a h s ps reply) {op : Op} {before after : A} (r : Reply)
    (hc : s.phase c = .applied op before after) (hstep : Step before op after r) :
    Explains Step a (h ++ [.respond c r]) (s.setPhase c .returned) ps
      (Function.update reply c r) := by
  obtain ⟨hpoint, hunanswered⟩ := hs.fits hc
  refine ⟨hs.chained, hs.once, fun p hp => ?_, fun p hp => List.mem_append_left _ (hs.invoked p hp),
    fun c' r' hr' => ?_, fun c₁ r' c₂ op' hsub p hp q hq hpc hqc => ?_, fun c' => ?_⟩
  · by_cases hpc : p.call = c
    · -- there is one point of the call, and its effect allows the answer
      obtain rfl := List.inj_on_of_nodup_map hs.once hp hpoint hpc
      rw [Function.update_self]
      exact hstep
    · rw [Function.update_of_ne hpc]
      exact hs.legal p hp
  · rcases List.mem_append.mp hr' with hr' | hr'
    · obtain ⟨hreply, hp⟩ := hs.answered c' r' hr'
      have hne : c' ≠ c := fun heq => hunanswered r' (heq ▸ hr')
      exact ⟨(Function.update_of_ne hne _ _).trans hreply, hp⟩
    · obtain ⟨rfl, rfl⟩ := CallEvent.respond.inj (List.mem_singleton.mp hr')
      exact ⟨Function.update_self .., _, hpoint, rfl⟩
  · rcases pair_sublist_concat hsub with hsub | ⟨-, heq⟩
    · exact hs.realTime c₁ r' c₂ op' hsub p hp q hq hpc hqc
    · cases heq
  · by_cases hc' : c' = c
    · subst hc'
      simp only [AtomicState.setPhase, Function.update_self]
      trivial
    · -- the other calls are where they were
      simp only [AtomicState.setPhase, Function.update_of_ne hc']
      refine (hs.phases c').concat (fun op' heq => by cases heq) fun r' heq => hc' ?_
      exact (CallEvent.respond.inj heq).1.symm

/-- Points that explain a history are a sequential order of it. -/
theorem linearizes (hs : Explains Step a h s ps reply) :
    Linearizes Step a h (ps.map (Point.placed reply)) s.state where
  legal := hs.chained.behaves hs.legal
  once := by
    rw [List.map_map]
    exact hs.once
  invoked x hx := by
    obtain ⟨p, hp, rfl⟩ := List.mem_map.mp hx
    exact hs.invoked p hp
  answered c r hr := by
    obtain ⟨rfl, p, hp, rfl⟩ := hs.answered c r hr
    exact ⟨p.op, List.mem_map.mpr ⟨p, hp, rfl⟩⟩
  realTime c r c' op hsub x hx y hy hxc hyc := by
    obtain ⟨p, hp, rfl⟩ := List.mem_map.mp hx
    obtain ⟨q, hq, rfl⟩ := List.mem_map.mp hy
    exact (hs.realTime c r c' op hsub p hp q hq hxc hyc).map (Point.placed reply)

end Explains

/-- **Run lemma**: the effects of a run of the atomic object explain its history. -/
theorem AtomicRun.explains [Nonempty Reply] {Step : A → Op → A → Reply → Prop} {a : A}
    {h : List (CallEvent Op Reply)} {s : AtomicState A Op} (hrun : AtomicRun Step a h s) :
    ∃ ps reply, Explains Step a h s ps reply := by
  -- on the run: the points are the calls in the order in which they took effect
  induction hrun with
  | init =>
    obtain ⟨r⟩ := ‹Nonempty Reply›
    exact ⟨[], fun _ => r, rfl, List.nodup_nil, by simp, by simp, by simp, by simp,
      fun c => ⟨by simp, by simp⟩⟩
  | step _ hstep ih =>
    obtain ⟨ps, reply, hs⟩ := ih
    cases hstep with
    | idle =>
      rw [List.append_nil]
      exact ⟨ps, reply, hs⟩
    | invoke op hc => exact ⟨ps, reply, hs.invoke op hc⟩
    | apply after r hc hlegal =>
      rw [List.append_nil]
      exact ⟨_, _, hs.apply after r hc hlegal⟩
    | respond r hc hlegal => exact ⟨ps, _, hs.respond r hc hlegal⟩

/-- **Linearization points**: the histories of the atomic object are linearizable, and its
    state is where the sequential order leads. -/
theorem AtomicRun.linearizes [Nonempty Reply] {Step : A → Op → A → Reply → Prop} {a : A}
    {h : List (CallEvent Op Reply)} {s : AtomicState A Op} (hrun : AtomicRun Step a h s) :
    ∃ l, Linearizes Step a h l s.state := by
  obtain ⟨ps, reply, hs⟩ := hrun.explains
  exact ⟨_, hs.linearizes⟩

end EventLog.Lib
