import EventLog.Lib.Linearizable
import EventLog.Lib.Pointwise

/-!
# Calls through proxies

A client that cannot reach a shared object sends its call to a proxy.  The proxy makes a call
of its own, or settles the matter itself, and sends the answer back.  Requests and answers
take their time and may get lost.

The call of the proxy lies within that of the client.  If the object is atomic, the clients
therefore see an atomic object too, in which their calls take effect when those of the proxies
do, whether or not an answer arrives.

* `Stage` says what has become of the call of a client.
* `Relays` relates the object the proxies call to the one the clients see; there is one lemma
  for each thing that can happen to a call.
* `AtomicState.Grows` follows the states in which calls took effect.
-/

namespace EventLog.Lib

variable {A Op Reply Op' Reply' : Type*}

/-! ## Stages -/

/-- What has become of the call of a client. -/
inductive Stage (Op Op' Reply' : Type*) where
  /-- The request is on its way. -/
  | sent (op' : Op')
  /-- Call `c` of a proxy works for it. -/
  | relayed (op' : Op') (op : Op) (c : Nat)
  /-- The answer is on its way. -/
  | replied (op' : Op') (reply : Reply')
  | ended

/-- What the client asked for, while its call is under way. -/
def Stage.op? : Stage Op Op' Reply' → Option Op'
  | .sent op' | .relayed op' _ _ | .replied op' _ => some op'
  | .ended => none

/-- On whose account a proxy makes a call. -/
inductive Owner (Op : Type*) where
  | client (r : Nat)
  | itself (op : Op)

/-- The phase is one of a call of `op`. -/
def Phase.Of (op : Op) : Phase A Op → Prop
  | .fresh => False
  | .pending op₁ => op₁ = op
  | .applied op₁ _ _ => op₁ = op
  | .returned => True

/-- What `op` does is something `op'` may do. -/
def Covers (Step : A → Op → A → Reply → Prop) (Step' : A → Op' → A → Reply' → Prop) (op : Op)
    (op' : Op') : Prop :=
  ∀ before after r, Step before op after r → ∃ r', Step' before op' after r'

/-- What `op` does leaves the object as it is. -/
def Quiet (Step : A → Op → A → Reply → Prop) (op : Op) : Prop :=
  ∀ before after r, Step before op after r → after = before

/-- The call of a client stands at `p` when it is at a stage. -/
def Stage.At (Step : A → Op → A → Reply → Prop) (Step' : A → Op' → A → Reply' → Prop)
    (t : AtomicState A Op) (p : Phase A Op') : Stage Op Op' Reply' → Prop
  | .sent op' => p = .pending op'
  | .relayed op' op c => Covers Step Step' op op' ∧
      (t.phase c = .pending op ∧ p = .pending op' ∨
        ∃ before after, t.phase c = .applied op before after ∧ p = .applied op' before after)
  | .replied op' reply => ∃ before after, p = .applied op' before after ∧
      Step' before op' after reply
  | .ended => True

/-- `a` is what the clients see of `t`.  The calls of the clients are at `stages`, and
    `owners` says on whose account the proxies made theirs. -/
structure Relays (Step : A → Op → A → Reply → Prop) (Step' : A → Op' → A → Reply' → Prop)
    (t : AtomicState A Op) (a : AtomicState A Op') (stages : List (Stage Op Op' Reply'))
    (owners : List (Owner Op)) : Prop where
  state : a.state = t.state
  stage : ∀ (r : Nat) (st : Stage Op Op' Reply'), stages[r]? = some st →
    st.At Step Step' t (a.phase r)
  unsent : ∀ r, stages.length ≤ r → a.phase r = .fresh
  unmade : ∀ c, owners.length ≤ c → t.phase c = .fresh
  owner : ∀ (r : Nat) (op' : Op') (op : Op) (c : Nat), stages[r]? = some (.relayed op' op c) →
    owners[c]? = some (.client r)
  owned : ∀ c r : Nat, owners[c]? = some (.client r) →
    (∃ op' op, stages[r]? = some (.relayed op' op c)) ∨ t.phase c = .returned
  quiet : ∀ (c : Nat) (op : Op), owners[c]? = some (.itself op) →
    Quiet Step op ∧ (t.phase c).Of op

theorem AtomicState.setPhase_self (s : AtomicState A Op) (c : Nat) (p : Phase A Op) :
    (s.setPhase c p).phase c = p :=
  Function.update_self ..

theorem AtomicState.setPhase_of_ne (s : AtomicState A Op) {c c' : Nat} (h : c' ≠ c)
    (p : Phase A Op) : (s.setPhase c p).phase c' = s.phase c' :=
  Function.update_of_ne h ..

variable {Step : A → Op → A → Reply → Prop} {Step' : A → Op' → A → Reply' → Prop}
  {t t' : AtomicState A Op} {a : AtomicState A Op'} {stages : List (Stage Op Op' Reply')}
  {owners : List (Owner Op)}

/-- A call of a proxy that does not work for the client may move on. -/
theorem Stage.At.congr {p : Phase A Op'} {st : Stage Op Op' Reply'} (h : st.At Step Step' t p)
    (hsame : ∀ op' op c, st = .relayed op' op c → t'.phase c = t.phase c) :
    st.At Step Step' t' p := by
  -- only the stage of a relayed call looks at the proxy's side
  cases st with
  | sent op' => exact h
  | relayed op' op c =>
    obtain ⟨hcovers, hphase⟩ := h
    refine ⟨hcovers, ?_⟩
    rw [hsame op' op c rfl]
    exact hphase
  | replied op' reply => exact h
  | ended => trivial

namespace Relays

theorem init (state : A) : Relays Step Step' ⟨state, fun _ => .fresh⟩ ⟨state, fun _ => .fresh⟩
    ([] : List (Stage Op Op' Reply')) [] where
  state := rfl
  stage _ _ h := by simp at h
  unsent _ _ := rfl
  unmade _ _ := rfl
  owner _ _ _ _ h := by simp at h
  owned _ _ h := by simp at h
  quiet _ _ h := by simp at h

/-! ## Clients -/

/-- One more number is in use. -/
theorem extend (h : Relays Step Step' t a stages owners) {a' : AtomicState A Op'}
    {st : Stage Op Op' Reply'} (hstate : a'.state = t.state)
    (hother : ∀ r, r ≠ stages.length → a'.phase r = a.phase r)
    (hat : st.At Step Step' t (a'.phase stages.length))
    (hnew : ∀ op' op c, st ≠ .relayed op' op c) :
    Relays Step Step' t a' (stages ++ [st]) owners := by
  refine ⟨hstate, fun r st' hr => ?_, fun r hr => ?_, h.unmade, fun r op' op c hr => ?_,
    fun c r hc => ?_, h.quiet⟩
  · -- a stage that was there is that of an older call
    rcases getElem?_concat_cases hr with hr | ⟨rfl, rfl⟩
    · rw [hother r (Nat.ne_of_lt (List.getElem?_eq_some_iff.mp hr).1)]
      exact h.stage r st' hr
    · exact hat
  · rw [List.length_append, List.length_singleton] at hr
    rw [hother r (by omega)]
    exact h.unsent r (by omega)
  · rcases getElem?_concat_cases hr with hr | ⟨-, hst⟩
    · exact h.owner r op' op c hr
    · exact absurd hst.symm (hnew op' op c)
  · refine (h.owned c r hc).imp_left ?_
    rintro ⟨op', op, hr⟩
    exact ⟨op', op, getElem?_append_of_some hr⟩

/-- A client makes a call. -/
theorem send (h : Relays Step Step' t a stages owners) (op' : Op') :
    AtomicStep Step' a [.invoke stages.length op'] (a.setPhase stages.length (.pending op')) ∧
      Relays Step Step' t (a.setPhase stages.length (.pending op')) (stages ++ [.sent op'])
        owners :=
  ⟨.invoke op' (h.unsent _ (Nat.le_refl _)), h.extend h.state
    (fun _ hrr => AtomicState.setPhase_of_ne _ hrr _) (AtomicState.setPhase_self ..)
    fun _ _ _ heq => by cases heq⟩

/-- A number is given to something that is no call. -/
theorem skip (h : Relays Step Step' t a stages owners) :
    Relays Step Step' t a (stages ++ [.ended]) owners :=
  h.extend h.state (fun _ _ => rfl) trivial fun _ _ _ heq => by cases heq

/-- A stage of a call that no proxy works for any more is exchanged. -/
theorem restage (h : Relays Step Step' t a stages owners) {r : Nat}
    {st st' : Stage Op Op' Reply'} (hr : stages[r]? = some st) {a' : AtomicState A Op'}
    (hstate : a'.state = t.state) (hother : ∀ r', r' ≠ r → a'.phase r' = a.phase r')
    (hat : st'.At Step Step' t (a'.phase r)) (hnew : ∀ op' op c, st' ≠ .relayed op' op c)
    (hover : ∀ c : Nat, owners[c]? = some (.client r) → t.phase c = .returned) :
    Relays Step Step' t a' (stages.set r st') owners := by
  have hlt := (List.getElem?_eq_some_iff.mp hr).1
  refine ⟨hstate, fun r' st₁ hr' => ?_, fun r' hr' => ?_, h.unmade, fun r' op₁ op c hr' => ?_,
    fun c r' hc => ?_, h.quiet⟩
  · -- the stage that was replaced, or one that stays
    by_cases hrr : r' = r
    · subst hrr
      rw [List.getElem?_set_self hlt] at hr'
      exact Option.some.inj hr' ▸ hat
    · rw [List.getElem?_set_ne (Ne.symm hrr)] at hr'
      rw [hother r' hrr]
      exact h.stage r' st₁ hr'
  · rw [List.length_set] at hr'
    rw [hother r' (by omega)]
    exact h.unsent r' hr'
  · by_cases hrr : r' = r
    · subst hrr
      rw [List.getElem?_set_self hlt] at hr'
      exact absurd (Option.some.inj hr') (hnew op₁ op c)
    · rw [List.getElem?_set_ne (Ne.symm hrr)] at hr'
      exact h.owner r' op₁ op c hr'
  · by_cases hrr : r' = r
    · -- what the client had called for is over
      exact .inr (hover c (hrr ▸ hc))
    · rw [List.getElem?_set_ne (Ne.symm hrr)]
      exact h.owned c r' hc

/-- Only a relayed call has a proxy at work. -/
theorem returned_of_stage (h : Relays Step Step' t a stages owners) {r c : Nat}
    {st : Stage Op Op' Reply'} (hr : stages[r]? = some st)
    (hst : ∀ op' op c, st ≠ .relayed op' op c) (hc : owners[c]? = some (.client r)) :
    t.phase c = .returned := by
  rcases h.owned c r hc with ⟨op', op, hr'⟩ | hreturned
  · exact absurd (Option.some.inj (hr.symm.trans hr')) (hst op' op c)
  · exact hreturned

/-- An answer arrives. -/
theorem deliver (h : Relays Step Step' t a stages owners) {r : Nat} {op' : Op'} {reply : Reply'}
    (hr : stages[r]? = some (.replied op' reply)) :
    AtomicStep Step' a [.respond r reply] (a.setPhase r .returned) ∧
      Relays Step Step' t (a.setPhase r .returned) (stages.set r .ended) owners := by
  obtain ⟨before, after, hphase, hlegal⟩ := h.stage r _ hr
  refine ⟨.respond reply hphase hlegal, h.restage hr h.state (fun r' hrr => ?_) trivial
    (fun op' op c heq => by cases heq)
    fun c => h.returned_of_stage hr fun op' op c heq => by cases heq⟩
  exact AtomicState.setPhase_of_ne _ hrr _

/-- A proxy settles a call that leaves the object as it is. -/
theorem settle (h : Relays Step Step' t a stages owners) {r : Nat} {op' : Op'} {reply : Reply'}
    (hr : stages[r]? = some (.sent op')) (hlegal : Step' t.state op' t.state reply) :
    ∃ a', AtomicStep Step' a [] a' ∧
      Relays Step Step' t a' (stages.set r (.replied op' reply)) owners := by
  have hpending : a.phase r = .pending op' := h.stage r _ hr
  rw [← h.state] at hlegal
  refine ⟨_, .apply a.state reply hpending hlegal, h.restage hr h.state (fun r' hrr => ?_)
    ⟨a.state, a.state, AtomicState.setPhase_self .., hlegal⟩ (fun op' op c heq => by cases heq)
    fun c => h.returned_of_stage hr fun op' op c heq => by cases heq⟩
  exact AtomicState.setPhase_of_ne _ hrr _

/-! ## Proxies -/

/-- A proxy makes a call, on anyone's account. -/
theorem makeCall (h : Relays Step Step' t a stages owners) {o : Owner Op} {op : Op}
    {stages' : List (Stage Op Op' Reply')} (hlength : stages'.length = stages.length)
    (hold : ∀ (r : Nat) (st : Stage Op Op' Reply'), stages'[r]? = some st → o ≠ .client r →
      stages[r]? = some st)
    (hkeep : ∀ (r : Nat) (op₁ : Op') (op₂ : Op) (c : Nat),
      stages[r]? = some (.relayed op₁ op₂ c) → stages'[r]? = some (.relayed op₁ op₂ c))
    (hnew : ∀ r, o = .client r → ∃ op', stages'[r]? = some (.relayed op' op owners.length) ∧
      Covers Step Step' op op' ∧ a.phase r = .pending op')
    (hquiet : ∀ op₁, o = .itself op₁ → op₁ = op ∧ Quiet Step op) :
    Relays Step Step' (t.setPhase owners.length (.pending op)) a stages' (owners ++ [o]) := by
  -- the new call has a number that no owner had
  have hne : ∀ {c : Nat} {o' : Owner Op}, owners[c]? = some o' → c ≠ owners.length :=
    fun hc => Nat.ne_of_lt (List.getElem?_eq_some_iff.mp hc).1
  refine ⟨h.state, fun r st hr => ?_, fun r hr => h.unsent r (hlength ▸ hr), fun c hc => ?_,
    fun r op₁ op₂ c hr => ?_, fun c r hc => ?_, fun c op₁ hc => ?_⟩
  · -- whether the call is made for this client
    by_cases hor : o = .client r
    · obtain ⟨op', hr', hcovers, hpending⟩ := hnew r hor
      obtain rfl := Option.some.inj (hr'.symm.trans hr)
      exact ⟨hcovers, .inl ⟨AtomicState.setPhase_self .., hpending⟩⟩
    · have hst := hold r st hr hor
      refine (h.stage r st hst).congr fun op₁ op₂ c heq => ?_
      exact AtomicState.setPhase_of_ne _ (hne (h.owner r op₁ op₂ c (heq ▸ hst))) _
  · rw [List.length_append, List.length_singleton] at hc
    rw [AtomicState.setPhase_of_ne _ (by omega)]
    exact h.unmade c (by omega)
  · by_cases hor : o = .client r
    · obtain ⟨op', hr', -⟩ := hnew r hor
      obtain ⟨-, -, rfl⟩ := Stage.relayed.inj (Option.some.inj (hr.symm.trans hr'))
      rw [List.getElem?_concat_length, hor]
    · exact getElem?_append_of_some (h.owner r op₁ op₂ c (hold r _ hr hor))
  · -- an old call keeps its owner, and the new one is owned by who makes it
    rcases getElem?_concat_cases hc with hc | ⟨rfl, hor⟩
    · rw [AtomicState.setPhase_of_ne _ (hne hc)]
      refine (h.owned c r hc).imp_left ?_
      rintro ⟨op₁, op₂, hr⟩
      exact ⟨op₁, op₂, hkeep r op₁ op₂ c hr⟩
    · obtain ⟨op', hr', -⟩ := hnew r hor.symm
      exact .inl ⟨op', op, hr'⟩
  · rcases getElem?_concat_cases hc with hc | ⟨rfl, ho⟩
    · rw [AtomicState.setPhase_of_ne _ (hne hc)]
      exact h.quiet c op₁ hc
    · obtain ⟨rfl, hq⟩ := hquiet op₁ ho.symm
      rw [AtomicState.setPhase_self]
      exact ⟨hq, rfl⟩

/-- A proxy makes a call for a client. -/
theorem relay (h : Relays Step Step' t a stages owners) {r : Nat} {op' : Op'} {op : Op}
    (hr : stages[r]? = some (.sent op')) (hcovers : Covers Step Step' op op') :
    Relays Step Step' (t.setPhase owners.length (.pending op)) a
      (stages.set r (.relayed op' op owners.length)) (owners ++ [.client r]) := by
  have hlt := (List.getElem?_eq_some_iff.mp hr).1
  refine h.makeCall (List.length_set ..) (fun r' st hr' hne => ?_) (fun r' op₁ op₂ c hr' => ?_)
    (fun r' hrr => ?_) fun op₁ ho => by cases ho
  · rwa [List.getElem?_set_ne fun heq => hne (congrArg _ heq)] at hr'
  · -- the client's call was not relayed before
    rw [List.getElem?_set_ne fun heq => ?_]
    · exact hr'
    · rw [← heq, hr] at hr'
      cases hr'
  · obtain rfl := Owner.client.inj hrr
    exact ⟨op', List.getElem?_set_self hlt, hcovers, h.stage r _ hr⟩

/-- A proxy makes a call on its own account. -/
theorem look (h : Relays Step Step' t a stages owners) {op : Op} (hquiet : Quiet Step op) :
    Relays Step Step' (t.setPhase owners.length (.pending op)) a stages
      (owners ++ [.itself op]) :=
  h.makeCall rfl (fun _ _ hr _ => hr) (fun _ _ _ _ hr => hr) (fun _ ho => by cases ho)
    fun _ ho => ⟨(Owner.itself.inj ho).symm, hquiet⟩

/-- The call of a proxy moves on, and its client with it. -/
theorem move (h : Relays Step Step' t a stages owners) {r c : Nat} {op' : Op'} {op : Op}
    (hr : stages[r]? = some (.relayed op' op c)) {p : Phase A Op} {state : A}
    {a' : AtomicState A Op'} {st : Stage Op Op' Reply'} (hstate : a'.state = state)
    (hother : ∀ r', r' ≠ r → a'.phase r' = a.phase r')
    (hat : st.At Step Step' { t.setPhase c p with state := state } (a'.phase r))
    (hst : st = .relayed op' op c ∨ p = .returned ∧ ∀ op' op c, st ≠ .relayed op' op c) :
    Relays Step Step' { t.setPhase c p with state := state } a' (stages.set r st) owners := by
  have hlt := (List.getElem?_eq_some_iff.mp hr).1
  have hc := h.owner r op' op c hr
  -- nothing but call `c` moves
  have hsame : ∀ c', c' ≠ c → (t.setPhase c p).phase c' = t.phase c' := fun c' hcc =>
    AtomicState.setPhase_of_ne t hcc p
  refine ⟨hstate, fun r' st' hr' => ?_, fun r' hr' => ?_, fun c' hc' => ?_,
    fun r' op₁ op₂ c' hr' => ?_, fun c' r' hc' => ?_, fun c' op₁ hc' => ?_⟩
  · by_cases hrr : r' = r
    · subst hrr
      rw [List.getElem?_set_self hlt] at hr'
      exact Option.some.inj hr' ▸ hat
    · rw [List.getElem?_set_ne (Ne.symm hrr)] at hr'
      rw [hother r' hrr]
      refine (h.stage r' st' hr').congr fun op₁ op₂ c' heq => hsame c' fun hcc => hrr ?_
      -- a call of a proxy has one client
      have hown := h.owner r' op₁ op₂ c' (heq ▸ hr')
      rw [hcc, hc] at hown
      exact (Owner.client.inj (Option.some.inj hown)).symm
  · rw [List.length_set] at hr'
    rw [hother r' (by omega)]
    exact h.unsent r' hr'
  · have hlt' := (List.getElem?_eq_some_iff.mp hc).1
    exact (hsame c' (by omega)).trans (h.unmade c' hc')
  · by_cases hrr : r' = r
    · subst hrr
      rw [List.getElem?_set_self hlt] at hr'
      rcases hst with hst | ⟨-, hst⟩
      · obtain ⟨-, -, rfl⟩ := Stage.relayed.inj (hst.symm.trans (Option.some.inj hr'))
        exact hc
      · exact absurd (Option.some.inj hr') (hst op₁ op₂ c')
    · rw [List.getElem?_set_ne (Ne.symm hrr)] at hr'
      exact h.owner r' op₁ op₂ c' hr'
  · by_cases hcc : c' = c
    · subst hcc
      obtain rfl := Owner.client.inj (Option.some.inj (hc.symm.trans hc'))
      rcases hst with rfl | ⟨rfl, -⟩
      · exact .inl ⟨op', op, List.getElem?_set_self hlt⟩
      · exact .inr (AtomicState.setPhase_self ..)
    · -- the client of another call is another client, since a client has one call at work
      rcases h.owned c' r' hc' with ⟨op₁, op₂, hr'⟩ | hreturned
      · refine .inl ⟨op₁, op₂, ?_⟩
        rw [List.getElem?_set_ne fun heq => hcc ?_]
        · exact hr'
        · rw [← heq, hr] at hr'
          exact (Stage.relayed.inj (Option.some.inj hr')).2.2.symm
      · exact .inr ((hsame c' hcc).trans hreturned)
  · -- a call the proxy makes for itself is not the client's
    have hcc : c' ≠ c := fun heq => by
      rw [heq, hc] at hc'
      cases hc'
    exact (hsame c' hcc).symm ▸ h.quiet c' op₁ hc'

/-- A call that a proxy makes on its own account moves on. -/
theorem moveQuiet (h : Relays Step Step' t a stages owners) {c : Nat} {op : Op}
    (hc : owners[c]? = some (.itself op)) {p : Phase A Op} (hp : p.Of op) :
    Relays Step Step' (t.setPhase c p) a stages owners := by
  have hsame : ∀ {c' : Nat} {o : Owner Op}, owners[c']? = some o → o ≠ .itself op →
      (t.setPhase c p).phase c' = t.phase c' := fun {c' o} hc' hne => by
    -- a call with another owner is another call
    refine AtomicState.setPhase_of_ne t (fun heq => hne ?_) p
    rw [heq, hc] at hc'
    exact (Option.some.inj hc').symm
  refine ⟨h.state, fun r st hr => ?_, h.unsent, fun c' hc' => ?_, h.owner, fun c' r hc' => ?_,
    fun c' op₁ hc' => ?_⟩
  · exact (h.stage r st hr).congr fun op₁ op₂ c' heq =>
      hsame (h.owner r op₁ op₂ c' (heq ▸ hr)) fun heq => by cases heq
  · have hlt := (List.getElem?_eq_some_iff.mp hc).1
    exact (AtomicState.setPhase_of_ne t (by omega) p).trans (h.unmade c' hc')
  · rw [hsame hc' fun heq => by cases heq]
    exact h.owned c' r hc'
  · by_cases hcc : c' = c
    · subst hcc
      obtain rfl := Owner.itself.inj (Option.some.inj (hc.symm.trans hc'))
      rw [AtomicState.setPhase_self]
      exact ⟨(h.quiet c' op hc).1, hp⟩
    · rw [AtomicState.setPhase_of_ne t hcc]
      exact h.quiet c' op₁ hc'

/-- The call of a proxy takes effect, and with it that of its client. -/
theorem work (h : Relays Step Step' t a stages owners) (hstep : AtomicStep Step t [] t') :
    ∃ a', AtomicStep Step' a [] a' ∧ Relays Step Step' t' a' stages owners := by
  cases hstep with
  | idle => exact ⟨a, .idle, h⟩
  | @apply c op after reply hpending hlegal =>
    -- on whose account the call is made decides whether a client's call takes effect with it
    cases ho : owners[c]? with
    | none =>
      -- a call that was not made is not pending
      rw [h.unmade c (List.getElem?_eq_none_iff.mp ho)] at hpending
      cases hpending
    | some o =>
      cases o with
      | itself op₁ =>
        obtain ⟨hquiet, hof⟩ := h.quiet c op₁ ho
        rw [hpending] at hof
        obtain rfl : op = op₁ := hof
        -- a call the proxy makes for itself changes nothing
        obtain rfl := hquiet _ _ _ hlegal
        exact ⟨a, .idle, h.moveQuiet ho rfl⟩
      | client r =>
        obtain ⟨op', op₁, hr⟩ | hreturned := h.owned c r ho
        · obtain ⟨hcovers, ⟨hphase, hwait⟩ | ⟨_, _, hphase, -⟩⟩ := h.stage r _ hr
          · obtain rfl := Phase.pending.inj (hpending.symm.trans hphase)
            -- the client's call takes effect together with the one made for it
            obtain ⟨reply', hlegal'⟩ := hcovers _ _ _ hlegal
            rw [← h.state] at hlegal'
            have hsame : stages.set r (.relayed op' op c) = stages := by
              obtain ⟨hlt, hget⟩ := List.getElem?_eq_some_iff.mp hr
              rw [← hget, List.set_getElem_self]
            have hat : (a.setPhase r (.applied op' a.state after)).phase r =
                .applied op' t.state after := h.state ▸ AtomicState.setPhase_self ..
            have hmoved : Relays Step Step' _
                { a.setPhase r (.applied op' a.state after) with state := after }
                (stages.set r (.relayed op' op c)) owners :=
              h.move hr rfl (fun r' hrr => AtomicState.setPhase_of_ne a hrr _)
                ⟨hcovers, .inr ⟨t.state, after, AtomicState.setPhase_self .., hat⟩⟩ (.inl rfl)
            exact ⟨_, .apply after reply' hwait hlegal', hsame ▸ hmoved⟩
          · cases hpending.symm.trans hphase
        · cases hpending.symm.trans hreturned

/-- The call of a proxy returns, and its client is answered. -/
theorem reply (h : Relays Step Step' t a stages owners) {r c : Nat} {op' : Op'} {op : Op}
    {ans : Reply} {ans' : Reply'} (hr : stages[r]? = some (.relayed op' op c))
    (hstep : AtomicStep Step t [.respond c ans] t')
    (hans : ∀ before after, Step before op after ans → Step' before op' after ans') :
    Relays Step Step' t' a (stages.set r (.replied op' ans')) owners := by
  cases hstep with
  | respond _ hphase hlegal =>
    -- only a call that has taken effect is answered
    obtain ⟨-, ⟨hpending, -⟩ | ⟨before, after, hphase', hat⟩⟩ := h.stage r _ hr
    · cases hphase.symm.trans hpending
    · obtain ⟨rfl, rfl, rfl⟩ := Phase.applied.inj (hphase.symm.trans hphase')
      exact h.move hr h.state (fun _ _ => rfl) ⟨_, _, hat, hans _ _ hlegal⟩
        (.inr ⟨rfl, fun op' op c heq => by cases heq⟩)

/-- A call that a proxy made on its own account returns what the object allowed. -/
theorem seen (h : Relays Step Step' t a stages owners) {c : Nat} {op : Op} {ans : Reply}
    (hc : owners[c]? = some (.itself op)) (hstep : AtomicStep Step t [.respond c ans] t') :
    Relays Step Step' t' a stages owners ∧
      ∃ before after, t.phase c = .applied op before after ∧ Step before op after ans := by
  cases hstep with
  | respond _ hphase hlegal =>
    obtain ⟨-, hof⟩ := h.quiet c op hc
    rw [hphase] at hof
    obtain rfl : _ = op := hof
    exact ⟨h.moveQuiet hc trivial, _, _, hphase, hlegal⟩

end Relays

/-! ## The states in which calls took effect -/

/-- `I` holds now and held wherever a call that is still under way took effect. -/
structure AtomicState.Grows [Preorder A] (I : A → Prop) (t : AtomicState A Op) : Prop where
  now : I t.state
  before : ∀ c op before after, t.phase c = .applied op before after → I before ∧ before ≤ t.state

theorem AtomicState.Grows.step [Preorder A] {I : A → Prop} {es : List (CallEvent Op Reply)}
    (h : t.Grows I) (hlegal : ∀ b op b' r, I b → Step b op b' r → I b' ∧ b ≤ b')
    (hstep : AtomicStep Step t es t') : t'.Grows I := by
  -- a phase that was not `applied` before is that of the call at hand
  have hold : ∀ {c : Nat} {p : Phase A Op} {c' : Nat} {op : Op} {b b' : A},
      (t.setPhase c p).phase c' = .applied op b b' → (∀ op b b', p ≠ .applied op b b') →
      t.phase c' = .applied op b b' := fun {c p c' op b b'} hphase hp => by
    by_cases hcc : c' = c
    · rw [hcc, AtomicState.setPhase_self] at hphase
      exact absurd hphase (hp op b b')
    · rwa [AtomicState.setPhase_of_ne t hcc] at hphase
  cases hstep with
  | idle => exact h
  | invoke op hfresh =>
    exact ⟨h.now, fun c op b b' hphase =>
      h.before c op b b' (hold hphase fun op b b' heq => by cases heq)⟩
  -- the call takes effect now, and what took effect before did so in a state below
  | @apply c op after r hpending hstep =>
    obtain ⟨hnow, hle⟩ := hlegal _ _ _ _ h.now hstep
    refine ⟨hnow, fun c' op' b b' hphase => ?_⟩
    by_cases hcc : c' = c
    · have hself := (AtomicState.setPhase_self t c (.applied op t.state after)).symm
      rw [hcc] at hphase
      obtain ⟨-, rfl, -⟩ := Phase.applied.inj (hself.trans hphase)
      exact ⟨h.now, hle⟩
    · obtain ⟨hI, hbelow⟩ := h.before c' op' b b'
        ((AtomicState.setPhase_of_ne t hcc _).symm.trans hphase)
      exact ⟨hI, le_trans hbelow hle⟩
  | respond r hphase _ =>
    exact ⟨h.now, fun c op b b' hphase =>
      h.before c op b b' (hold hphase fun op b b' heq => by cases heq)⟩

end EventLog.Lib
