import Mathlib.Data.Bool.Count
import Mathlib.Data.List.Basic
import Mathlib.Data.List.Infix
import Mathlib.Data.List.Range
import Mathlib.Logic.Function.Basic

/-! Guarded deterministic steps and their finite runs. A disabled event is one the
program does not complete from that state; what a run emits is read by an observation
of each step, so that no history has to be stored in the state. On this stand the parts of a
system, logs that a replica replays, events that follow scripts, and parties taking turns. -/
namespace TransitionSystems

structure System (σ ε : Type*) where
  Enabled : σ → ε → Prop
  next : σ → ε → σ

namespace System

variable {σ ε ω : Type*} (T : System σ ε)

def run (s : σ) : List ε → σ
  | [] => s
  | e :: es => run (T.next s e) es

/-- `P` holds of every event of the run, together with the state it meets. -/
def Always (P : σ → ε → Prop) (s : σ) : List ε → Prop
  | [] => True
  | e :: es => P s e ∧ Always P (T.next s e) es

def Valid (s : σ) (es : List ε) : Prop := T.Always T.Enabled s es

def observe (obs : σ → ε → List ω) (s : σ) : List ε → List ω
  | [] => []
  | e :: es => obs s e ++ observe obs (T.next s e) es

instance decidableAlways (P : σ → ε → Prop) [∀ s e, Decidable (P s e)] :
    ∀ s es, Decidable (T.Always P s es)
  | _, [] => isTrue trivial
  | s, e :: es =>
    have := decidableAlways P (T.next s e) es
    inferInstanceAs (Decidable (_ ∧ _))

instance [∀ s e, Decidable (T.Enabled s e)] (s : σ) (es : List ε) : Decidable (T.Valid s es) :=
  inferInstanceAs (Decidable (T.Always T.Enabled s es))

@[simp] theorem run_nil (s : σ) : T.run s [] = s := rfl
@[simp] theorem run_cons (s : σ) (e : ε) (es : List ε) :
    T.run s (e :: es) = T.run (T.next s e) es := rfl

@[simp] theorem always_nil (P : σ → ε → Prop) (s : σ) : T.Always P s [] := trivial
@[simp] theorem always_cons (P : σ → ε → Prop) (s : σ) (e : ε) (es : List ε) :
    T.Always P s (e :: es) ↔ P s e ∧ T.Always P (T.next s e) es := Iff.rfl

@[simp] theorem observe_nil (obs : σ → ε → List ω) (s : σ) : T.observe obs s [] = [] := rfl
@[simp] theorem observe_cons (obs : σ → ε → List ω) (s : σ) (e : ε) (es : List ε) :
    T.observe obs s (e :: es) = obs s e ++ T.observe obs (T.next s e) es := rfl

theorem run_append (s : σ) (es fs : List ε) :
    T.run s (es ++ fs) = T.run (T.run s es) fs := by
  induction es generalizing s with
  | nil => rfl
  | cons e es ih => exact ih (T.next s e)

theorem always_append (P : σ → ε → Prop) (s : σ) (es fs : List ε) :
    T.Always P s (es ++ fs) ↔ T.Always P s es ∧ T.Always P (T.run s es) fs := by
  induction es generalizing s with
  | nil => simp
  | cons e es ih => simp [ih, and_assoc]

theorem observe_append (obs : σ → ε → List ω) (s : σ) (es fs : List ε) :
    T.observe obs s (es ++ fs) = T.observe obs s es ++ T.observe obs (T.run s es) fs := by
  induction es generalizing s with
  | nil => rfl
  | cons e es ih => simp [ih, List.append_assoc]

variable {T}

theorem Always.imp {P Q : σ → ε → Prop} (h : ∀ s e, P s e → Q s e) {s : σ} {es : List ε}
    (hp : T.Always P s es) : T.Always Q s es := by
  induction es generalizing s with
  | nil => trivial
  | cons e es ih => exact ⟨h s e hp.1, ih hp.2⟩

/-- A condition on the events alone holds along every run over them. -/
theorem always_of_forall {P : σ → ε → Prop} {es : List ε} (h : ∀ e ∈ es, ∀ s, P s e) (s : σ) :
    T.Always P s es := by
  induction es generalizing s with
  | nil => trivial
  | cons e es ih =>
    exact ⟨h e (by simp) s, ih (fun a ha => h a (by simp [ha])) _⟩

/-- The invariant rule: `P` is what the run is known to satisfy at each step, `I` what
each such step preserves. -/
theorem always_invariant {I : σ → Prop} {P : σ → ε → Prop}
    (step : ∀ s e, I s → P s e → I (T.next s e)) {s : σ} {es : List ε}
    (hs : I s) (hp : T.Always P s es) :
    T.Always (fun s e => I s ∧ P s e) s es ∧ I (T.run s es) := by
  induction es generalizing s with
  | nil => exact ⟨trivial, hs⟩
  | cons e es ih =>
    have hn := ih (step s e hs hp.1) hp.2
    exact ⟨⟨⟨hs, hp.1⟩, hn.1⟩, hn.2⟩

theorem run_invariant {I : σ → Prop} {P : σ → ε → Prop}
    (step : ∀ s e, I s → P s e → I (T.next s e)) {s : σ} {es : List ε}
    (hs : I s) (hp : T.Always P s es) : I (T.run s es) := (always_invariant step hs hp).2

theorem always_at {P : σ → ε → Prop} {s : σ} {pre post : List ε} {e : ε}
    (h : T.Always P s (pre ++ e :: post)) : P (T.run s pre) e :=
  ((T.always_append P s pre (e :: post)).mp h).2.1

theorem mem_observe {obs : σ → ε → List ω} {s : σ} {es : List ε} {x : ω}
    (h : x ∈ T.observe obs s es) :
    ∃ pre e post, es = pre ++ e :: post ∧ x ∈ obs (T.run s pre) e := by
  induction es generalizing s with
  | nil => cases h
  | cons e es ih =>
    rcases List.mem_append.mp h with h | h
    · exact ⟨[], e, es, rfl, h⟩
    · obtain ⟨pre, e', post, rfl, hx⟩ := ih h
      exact ⟨e :: pre, e', post, rfl, hx⟩

theorem observe_congr {f g : σ → ε → List ω} {s : σ} {es : List ε}
    (h : T.Always (fun s e => f s e = g s e) s es) : T.observe f s es = T.observe g s es := by
  induction es generalizing s with
  | nil => rfl
  | cons e es ih => simp [h.1, ih h.2]

theorem observe_sublist (T : System σ ε) {f g : σ → ε → List ω}
    (h : ∀ s e, (f s e).Sublist (g s e)) (s : σ) (es : List ε) :
    (T.observe f s es).Sublist (T.observe g s es) := by
  induction es generalizing s with
  | nil => exact List.Sublist.refl _
  | cons e es ih => exact (h s e).append (ih (T.next s e))

theorem map_observe {α : Type*} (T : System σ ε) (f : ω → α) (obs : σ → ε → List ω) (s : σ)
    (es : List ε) : (T.observe obs s es).map f = T.observe (fun s e => (obs s e).map f) s es := by
  induction es generalizing s with
  | nil => rfl
  | cons e es ih => simp [ih]

theorem filterMap_observe {α : Type*} (T : System σ ε) (f : ω → Option α)
    (obs : σ → ε → List ω) (s : σ) (es : List ε) :
    (T.observe obs s es).filterMap f = T.observe (fun s e => (obs s e).filterMap f) s es := by
  induction es generalizing s with
  | nil => rfl
  | cons e es ih => simp [ih]

theorem observe_events (T : System σ ε) (f : ε → Option ω) (s : σ) (es : List ε) :
    T.observe (fun _ e => (f e).toList) s es = es.filterMap f := by
  induction es generalizing s with
  | nil => rfl
  | cons e es ih => cases hf : f e <;> simp [ih, hf]

/-- An observation that only leaves things out agrees over a run only by leaving out
nothing at any step of it. -/
theorem observe_eq_iff {f g : σ → ε → List ω} (h : ∀ s e, (f s e).Sublist (g s e))
    {s : σ} {es : List ε} :
    T.observe f s es = T.observe g s es ↔ T.Always (fun s e => f s e = g s e) s es := by
  refine ⟨?_, observe_congr⟩
  intro heq
  induction es generalizing s with
  | nil => trivial
  | cons e es ih =>
    have hl := congrArg List.length heq
    simp only [observe_cons, List.length_append] at hl
    have hhead := (h s e).length_le
    have htail := (T.observe_sublist h (T.next s e) es).length_le
    have hfg : f s e = g s e := (h s e).eq_of_length (by omega)
    refine ⟨hfg, ih ?_⟩
    rw [observe_cons, observe_cons, hfg] at heq
    exact List.append_cancel_left heq

/-- A reading of the state that each step extends by what is observed of it. -/
theorem run_reading {f : σ → List ω} {obs : σ → ε → List ω} {s : σ} {es : List ε}
    (h : T.Always (fun s e => f (T.next s e) = f s ++ obs s e) s es) :
    f (T.run s es) = f s ++ T.observe obs s es := by
  induction es generalizing s with
  | nil => simp
  | cons e es ih => rw [run_cons, ih h.2, h.1, observe_cons, List.append_assoc]

end System

/-! A system read as one of its parts. Every step of the whole is a run of the part, empty
for a step that does not concern it; so is then every run, and what holds along the runs of
the part holds of it inside the whole, whatever the other parts do. -/
section Projections

/-- A part of a system: its state, and what each step of the whole is for it. -/
structure Projection {σ ε σ' ε' : Type*} (T : System σ ε) (T' : System σ' ε') where
  state : σ → σ'
  events : σ → ε → List ε'
  step : ∀ s e, T.Enabled s e → state (T.next s e) = T'.run (state s) (events s e)
  enabled : ∀ s e, T.Enabled s e → T'.Valid (state s) (events s e)

namespace Projection

variable {σ ε σ' ε' σ'' ε'' : Type*} {T : System σ ε} {T' : System σ' ε'} {T'' : System σ'' ε''}

def runEvents (p : Projection T T') (s : σ) (es : List ε) : List ε' := T.observe p.events s es

variable (p : Projection T T') {s : σ} {es : List ε}

@[simp] theorem runEvents_nil : p.runEvents s [] = [] := rfl

@[simp] theorem runEvents_cons (e : ε) :
    p.runEvents s (e :: es) = p.events s e ++ p.runEvents (T.next s e) es := rfl

theorem runEvents_append (es fs : List ε) :
    p.runEvents s (es ++ fs) = p.runEvents s es ++ p.runEvents (T.run s es) fs :=
  T.observe_append p.events s es fs

theorem state_run (hv : T.Valid s es) :
    p.state (T.run s es) = T'.run (p.state s) (p.runEvents s es) := by
  induction es generalizing s with
  | nil => rfl
  | cons e es ih =>
    rw [System.run_cons, ih hv.2, runEvents_cons, System.run_append, p.step s e hv.1]

theorem valid_run (hv : T.Valid s es) : T'.Valid (p.state s) (p.runEvents s es) := by
  induction es generalizing s with
  | nil => trivial
  | cons e es ih =>
    have hrest := ih hv.2
    rw [p.step s e hv.1] at hrest
    exact (T'.always_append _ _ _ _).mpr ⟨p.enabled s e hv.1, hrest⟩

/-- What the part emits in a run, it emits in the steps of the whole. -/
theorem observe_run {ω : Type*} (obs : σ' → ε' → List ω) (hv : T.Valid s es) :
    T'.observe obs (p.state s) (p.runEvents s es) =
      T.observe (fun s e => T'.observe obs (p.state s) (p.events s e)) s es := by
  induction es generalizing s with
  | nil => rfl
  | cons e es ih =>
    rw [runEvents_cons, System.observe_append, ← p.step s e hv.1, ih hv.2, System.observe_cons]

def comp (q : Projection T' T'') (p : Projection T T') : Projection T T'' where
  state s := q.state (p.state s)
  events s e := q.runEvents (p.state s) (p.events s e)
  step s e he := by
    rw [p.step s e he]
    exact q.state_run (p.enabled s e he)
  enabled s e he := q.valid_run (p.enabled s e he)

end Projection

/-- Between systems whose states are only related: if every step takes related states to
related ones by what it emits, so does every run. -/
theorem simulation_run {σ ε σ' ε' : Type*} {T : System σ ε} {U : System σ' ε'}
    {R : σ' → σ → Prop} {P : σ → ε → Prop} {f : σ → ε → List ε'}
    (step : ∀ u s e, R u s → P s e → U.Valid u (f s e) ∧ R (U.run u (f s e)) (T.next s e))
    {u : σ'} {s : σ} {es : List ε} (hs : R u s) (hp : T.Always P s es) :
    U.Valid u (T.observe f s es) ∧ R (U.run u (T.observe f s es)) (T.run s es) := by
  induction es generalizing u s with
  | nil => exact ⟨trivial, hs⟩
  | cons e es ih =>
    obtain ⟨hv, hr⟩ := step u s e hs hp.1
    obtain ⟨hvs, hrs⟩ := ih hr hp.2
    rw [System.observe_cons, System.run_append]
    exact ⟨(U.always_append _ _ _ _).mpr ⟨hv, hvs⟩, hrs⟩

end Projections

/-! A log of changes and the states it passes through. `apply` says what one entry does; a
source records each entry with the state right after it, and a replica replays the entries
without the states. -/
section Logs

variable {σ ε : Type*} {apply : σ → ε → σ}

def replay (apply : σ → ε → σ) (s : σ) (log : List ε) : σ := log.foldl apply s

/-- From `s`, each entry leads to the state that stands with it, and the last one to `t`. -/
def Records (apply : σ → ε → σ) : σ → List (ε × σ) → σ → Prop
  | s, [], t => t = s
  | s, (e, s') :: log, t => s' = apply s e ∧ Records apply s' log t

theorem replay_append (s : σ) (log log' : List ε) :
    replay apply s (log ++ log') = replay apply (replay apply s log) log' :=
  List.foldl_append

theorem Records.append {s t u : σ} {log log' : List (ε × σ)} (h : Records apply s log t)
    (h' : Records apply t log' u) : Records apply s (log ++ log') u := by
  induction log generalizing s with
  | nil => rw [show t = s from h] at h'; exact h'
  | cons e log ih => exact ⟨h.1, ih h.2⟩

theorem Records.replay_eq {s t : σ} {log : List (ε × σ)} (h : Records apply s log t) :
    t = replay apply s (log.map Prod.fst) := by
  induction log generalizing s with
  | nil => exact h
  | cons e log ih => rw [ih h.2, h.1]; rfl

/-- The state that stands with an entry is what replaying up to that entry gives. -/
theorem Records.at {s t : σ} {log : List (ε × σ)} (h : Records apply s log t) {i : ℕ}
    {e : ε} {s' : σ} (hi : log[i]? = some (e, s')) :
    s' = replay apply s ((log.take (i + 1)).map Prod.fst) := by
  induction log generalizing s i with
  | nil => cases hi
  | cons a log ih =>
    cases i with
    | zero =>
      obtain rfl := Option.some.inj hi
      exact h.1
    | succ i =>
      rw [ih h.2 hi, h.1]
      rfl

/-- The states that a log passes through are the replays of its first parts. -/
theorem Records.states {s t : σ} {log : List (ε × σ)} (h : Records apply s log t) {j : ℕ}
    (hj : j ≤ log.length) :
    (s :: log.map Prod.snd)[j]? = some (replay apply s ((log.take j).map Prod.fst)) := by
  cases j with
  | zero => rfl
  | succ i =>
    have hi := List.getElem?_eq_getElem (Nat.lt_of_succ_le hj)
    rw [List.getElem?_cons_succ, List.getElem?_map, hi, Option.map_some]
    exact congrArg some (h.at hi)

/-- A run whose steps record what they do records what it does. -/
theorem records_run {T : System σ ε} {S L : Type*} {step : S → L → S} {f : σ → S}
    {log : σ → ε → List (L × S)} {s : σ} {es : List ε}
    (h : T.Always (fun s e => Records step (f s) (log s e) (f (T.next s e))) s es) :
    Records step (f s) (T.observe log s es) (f (T.run s es)) := by
  induction es generalizing s with
  | nil => rfl
  | cons e es ih => exact h.1.append (ih h.2)

end Logs

/-! Events that each concern one key, where the events of every key follow a script of its
own. The state says how far each key is; a run is valid exactly if the events of each key
are the next entries of its script, however the keys interleave. -/
section Scripts

variable {K ε : Type*} [DecidableEq K] {key : ε → K} {script : K → ℕ → ε}

def scriptSystem (key : ε → K) (script : K → ℕ → ε) : System (K → ℕ) ε :=
  { Enabled := fun c e => e = script (key e) (c (key e))
    next := fun c e => Function.update c (key e) (c (key e) + 1) }

def eventsAt (key : ε → K) (k : K) (es : List ε) : List ε := es.filter fun e => key e = k

theorem eventsAt_append (k : K) (es fs : List ε) :
    eventsAt key k (es ++ fs) = eventsAt key k es ++ eventsAt key k fs := List.filter_append ..

theorem run_count (c : K → ℕ) (es : List ε) (k : K) :
    (scriptSystem key script).run c es k = c k + (eventsAt key k es).length := by
  induction es generalizing c with
  | nil => rfl
  | cons e es ih =>
    rw [System.run_cons, ih]
    by_cases hk : key e = k
    · subst hk
      simp [scriptSystem, eventsAt, Nat.add_assoc, Nat.add_comm]
    · simp [scriptSystem, eventsAt, hk, Ne.symm hk]

/-- The events of a key in a valid run are the next ones of its script. -/
theorem eventsAt_valid {c : K → ℕ} {es : List ε} (hv : (scriptSystem key script).Valid c es)
    (k : K) :
    eventsAt key k es = (List.range' (c k) (eventsAt key k es).length).map (script k) := by
  induction es generalizing c with
  | nil => rfl
  | cons e es ih =>
    have hrest := ih hv.2
    by_cases hk : key e = k
    · subst hk
      have hcons : eventsAt key (key e) (e :: es) = e :: eventsAt key (key e) es :=
        List.filter_cons_of_pos (by simp)
      have hnext : (scriptSystem key script).next c e (key e) = c (key e) + 1 :=
        Function.update_self ..
      rw [hnext] at hrest
      rw [hcons, List.length_cons, List.range'_succ, List.map_cons, ← hrest]
      exact congrArg (· :: _) hv.1
    · have hcons : eventsAt key k (e :: es) = eventsAt key k es :=
        List.filter_cons_of_neg (by simpa using hk)
      have hnext : (scriptSystem key script).next c e k = c k :=
        Function.update_of_ne (Ne.symm hk) ..
      rw [hnext] at hrest
      rw [hcons]
      exact hrest

end Scripts

/-! Two parties that take turns. A run is valid exactly as long as each turn is taken by the
one whose turn it is, and then neither gets ahead of the other by more than one. -/
section Turns

def turnSystem : System Bool Bool := { Enabled := fun due v => v = due, next := fun due _ => !due }

theorem valid_head {due : Bool} {vs : List Bool} (hv : turnSystem.Valid due vs) :
    ∀ v ∈ vs.head?, v = due := by
  intro v h
  cases vs with
  | nil => cases h
  | cons w vs =>
    obtain rfl := Option.some.inj h
    exact hv.1

theorem valid_chain {due : Bool} {vs : List Bool} (hv : turnSystem.Valid due vs) :
    vs.IsChain (· ≠ ·) := by
  induction vs generalizing due with
  | nil => exact .nil
  | cons v vs ih =>
    refine (ih hv.2).cons ?_
    intro w hw
    have hnext : w = !due := valid_head hv.2 w hw
    have hfirst : v = due := hv.1
    rw [hnext, hfirst]
    exact (Bool.not_ne_self due).symm

theorem valid_count {due : Bool} {vs : List Bool} (hv : turnSystem.Valid due vs) (v : Bool) :
    vs.count v ≤ vs.count (!v) + 1 := by
  have h := (valid_chain hv).count_not_le_count_add_one (!v)
  rwa [Bool.not_not] at h

end Turns

end TransitionSystems
