import Mathlib

/-!
# Signals

An operation that ctrl+C cancels has a `Signalable` object for its time. The signal handler
tells all of these objects. It ends memwatch at the fourth ctrl+C in a row in one second,
whether there is anything to cancel or not.
-/

namespace Memwatch

/-- The live objects by their addresses, with `signaled`; the set of the objects; and what
the signal handler remembers. -/
structure Signals where
  objects : Nat → Option Bool
  allSignalables : List Nat
  recentCancelTime : Nat
  recentCancelCount : Nat

namespace Signals

def new : Signals := ⟨fun _ => none, [], 0, 0⟩

/-- `Signalable::Signalable` -/
def construct (s : Signals) (p : Nat) : Signals :=
  { s with
    objects := Function.update s.objects p (some false)
    allSignalables :=
      if p ∈ s.allSignalables then s.allSignalables else p :: s.allSignalables }

/-- `Signalable::~Signalable` -/
def destroy (s : Signals) (p : Nat) : Signals :=
  { s with
    objects := Function.update s.objects p none
    allSignalables := s.allSignalables.erase p }

def isSignaled (s : Signals) (p : Nat) : Option Bool := s.objects p

/-- `s->signaled = true`, if there is an object. -/
def signal (s : Signals) (p : Nat) : Option Signals :=
  (s.objects p).map fun _ => { s with objects := Function.update s.objects p (some true) }

def signalAll (s : Signals) : Option (Signals × Bool) := do
  let s' ← s.allSignalables.foldlM signal s
  pure (s', !s'.allSignalables.isEmpty)

/-- How the handler is left, with what it prints. -/
inductive Outcome where
  | exits (printed : String)
  | returns (s : Signals) (printed : Option String)

def cancel (s : Signals) : Option Outcome := do
  let (s, any) ← s.signalAll
  pure (.returns s (if any then some " -- canceling operation\n" else none))

/-- The handler reads the time once or twice. -/
def sigintHandler (s : Signals) (now later : Nat) : Option Outcome :=
  if s.recentCancelTime = now then
    if s.recentCancelCount > 1 then some (.exits " -- no operation to cancel - terminating\n")
    else cancel { s with recentCancelCount := s.recentCancelCount + 1 }
  else cancel { s with recentCancelTime := later, recentCancelCount := 0 }

/-! ## Runs -/

inductive Event where
  | construct (p : Nat)
  | destroy (p : Nat)
  | press (now later : Nat)

/-- The states in which memwatch runs, with the events until then, the latest one first. An
object has an address that no other object has in its time. -/
inductive Run : List Event → Signals → Prop where
  | new : Run [] new
  | construct {es : List Event} {s : Signals} (h : Run es s) {p : Nat} (hp : s.objects p = none) :
      Run (.construct p :: es) (s.construct p)
  | destroy {es : List Event} {s : Signals} (h : Run es s) {p : Nat} (hp : s.objects p ≠ none) :
      Run (.destroy p :: es) (s.destroy p)
  | press {es : List Event} {s s' : Signals} (h : Run es s) {now later : Nat}
      {printed : Option String} (hs' : s.sigintHandler now later = some (.returns s' printed)) :
      Run (.press now later :: es) s'

/-- The set has the objects that live, each once. -/
structure Registered (s : Signals) : Prop where
  nodup : s.allSignalables.Nodup
  live : ∀ p, p ∈ s.allSignalables ↔ s.objects p ≠ none

/-- There was a press since the last object was constructed at the address. -/
def pressedSince (p : Nat) : List Event → Bool
  | [] => false
  | .construct q :: es => if q = p then false else pressedSince p es
  | .destroy _ :: es => pressedSince p es
  | .press _ _ :: _ => true

def seconds : List Event → List Nat
  | [] => []
  | .press now _ :: es => now :: seconds es
  | _ :: es => seconds es

variable {s s' : Signals} {es : List Event} {p now later : Nat} {printed : Option String}

/-! ## Objects -/

theorem registered_new : Registered new where
  nodup := List.nodup_nil
  live _ := ⟨nofun, fun h => absurd rfl h⟩

theorem Registered.construct (h : Registered s) (hp : s.objects p = none) :
    Registered (s.construct p) := by
  have hnot : p ∉ s.allSignalables := fun hmem => (h.live p).mp hmem hp
  unfold Signals.construct
  rw [if_neg hnot]
  refine ⟨List.nodup_cons.mpr ⟨hnot, h.nodup⟩, fun q => ?_⟩
  rw [List.mem_cons, h.live q]
  by_cases hq : q = p
  · subst hq; simp
  · simp [hq]

theorem Registered.destroy (h : Registered s) : Registered (s.destroy p) := by
  refine ⟨h.nodup.erase p, fun q => ?_⟩
  show q ∈ s.allSignalables.erase p ↔ _
  rw [h.nodup.mem_erase_iff, h.live q]
  unfold Signals.destroy
  by_cases hq : q = p
  · subst hq; simp
  · simp [hq]

def signaled (s : Signals) (ps : List Nat) : Signals :=
  { s with objects := fun p => if p ∈ ps then some true else s.objects p }

theorem foldlM_signal {ps : List Nat} (h : ∀ p ∈ ps, s.objects p ≠ none) :
    ps.foldlM signal s = some (s.signaled ps) := by
  induction ps generalizing s with
  | nil => simp [signaled]
  | cons p ps ih =>
    obtain ⟨b, hb⟩ := Option.ne_none_iff_exists'.mp (h p List.mem_cons_self)
    have hstep : s.signal p =
        some { s with objects := Function.update s.objects p (some true) } := by
      rw [signal, hb]
      rfl
    rw [List.foldlM_cons, hstep]
    refine (ih fun q hq => ?_).trans ?_
    · by_cases hqp : q = p
      · subst hqp; simp
      · simpa [hqp] using h q (List.mem_cons_of_mem _ hq)
    · congr 1
      unfold signaled
      congr 1
      funext q
      by_cases hqp : q = p
      · subst hqp; simp
      · simp [hqp]

/-- No press meets an object that is not there, and after it all objects are signaled. -/
theorem Registered.cancel (h : Registered s) :
    s.cancel = some (.returns (s.signaled s.allSignalables)
      (if s.allSignalables = [] then none else some " -- canceling operation\n")) := by
  unfold Signals.cancel signalAll
  rw [foldlM_signal fun p hp => (h.live p).mp hp]
  cases hall : s.allSignalables with
  | nil => simp [signaled, hall]
  | cons p ps => simp [signaled, hall]

theorem Registered.signaled (h : Registered s) : Registered (s.signaled s.allSignalables) := by
  refine ⟨h.nodup, fun p => ?_⟩
  show p ∈ s.allSignalables ↔ (if p ∈ s.allSignalables then some true else s.objects p) ≠ none
  by_cases hp : p ∈ s.allSignalables
  · simp [hp]
  · simpa [hp] using (h.live p).not.mp hp

/-- What the handler remembers of a press, and whether it comes to that. -/
inductive Pressed (s : Signals) (now later : Nat) : Option Outcome → Prop where
  | exits (printed : String) (htime : s.recentCancelTime = now) (hcount : 1 < s.recentCancelCount) :
      Pressed s now later (some (.exits printed))
  | again {s' : Signals} (printed : Option String) (htime : s.recentCancelTime = now)
      (hcount : s.recentCancelCount ≤ 1)
      (hs' : s' = { s.signaled s.allSignalables with
        recentCancelCount := s.recentCancelCount + 1 }) :
      Pressed s now later (some (.returns s' printed))
  | first {s' : Signals} (printed : Option String) (htime : s.recentCancelTime ≠ now)
      (hs' : s' = { s.signaled s.allSignalables with
        recentCancelTime := later, recentCancelCount := 0 }) :
      Pressed s now later (some (.returns s' printed))

theorem Registered.pressed (h : Registered s) (now later : Nat) :
    Pressed s now later (s.sigintHandler now later) := by
  unfold Signals.sigintHandler
  split_ifs with htime hcount
  · exact .exits _ htime hcount
  · have hagain : Registered { s with recentCancelCount := s.recentCancelCount + 1 } :=
      ⟨h.nodup, h.live⟩
    rw [hagain.cancel]
    exact .again _ htime (not_lt.mp hcount) rfl
  · have hfirst : Registered { s with recentCancelTime := later, recentCancelCount := 0 } :=
      ⟨h.nodup, h.live⟩
    rw [hfirst.cancel]
    exact .first _ htime rfl

theorem Registered.returns (h : Registered s)
    (hs' : s.sigintHandler now later = some (.returns s' printed)) :
    Registered s' ∧ ∀ p b, s'.objects p = some b → b = true := by
  have hobjects : ∀ p b, (s.signaled s.allSignalables).objects p = some b → b = true := by
    intro p b hb
    have hb : (if p ∈ s.allSignalables then some true else s.objects p) = some b := hb
    by_cases hp : p ∈ s.allSignalables
    · rw [if_pos hp] at hb
      exact (Option.some.inj hb).symm
    · rw [if_neg hp, not_not.mp ((h.live p).not.mp hp)] at hb
      cases hb
  have hpressed := h.pressed now later
  rw [hs'] at hpressed
  cases hpressed with
  | again _ _ _ hs' => exact hs' ▸ ⟨⟨h.signaled.nodup, h.signaled.live⟩, hobjects⟩
  | first _ _ hs' => exact hs' ▸ ⟨⟨h.signaled.nodup, h.signaled.live⟩, hobjects⟩

theorem Run.registered (h : Run es s) : Registered s := by
  induction h with
  | new => exact registered_new
  | construct _ hp ih => exact ih.construct hp
  | destroy _ _ ih => exact ih.destroy
  | press _ hs' ih => exact (ih.returns hs').1

/-- No press meets an object that is not there any more, and an object is signaled if and only
if there was a press since its construction. -/
theorem signaled_since (h : Run es s) : (∀ now later, s.sigintHandler now later ≠ none) ∧
    ∀ p b, s.isSignaled p = some b → b = pressedSince p es := by
  refine ⟨fun now later hnone => ?_, fun p b hb => ?_⟩
  · have hpressed := h.registered.pressed now later
    rw [hnone] at hpressed
    cases hpressed
  · induction h generalizing b with
    | new => cases hb
    | @construct es s h q hq ih =>
      have hb : Function.update s.objects q (some false) p = some b := hb
      rw [pressedSince]
      by_cases hqp : q = p
      · subst hqp
        rw [Function.update_self] at hb
        rw [if_pos rfl]
        exact (Option.some.inj hb).symm
      · rw [Function.update_of_ne (Ne.symm hqp)] at hb
        rw [if_neg hqp]
        exact ih b hb
    | @destroy es s h q hq ih =>
      have hb : Function.update s.objects q none p = some b := hb
      by_cases hqp : q = p
      · subst hqp
        rw [Function.update_self] at hb
        cases hb
      · rw [Function.update_of_ne (Ne.symm hqp)] at hb
        exact ih b hb
    | press h hs' => exact (h.registered.returns hs').2 p b hb

/-- An object, a press, another object. -/
theorem signaled_since_two : ∃ s, Run [.construct 2, .press 5 5, .construct 1] s ∧
    (∀ now later, s.sigintHandler now later ≠ none) ∧ ∀ p b, s.isSignaled p = some b →
      b = pressedSince p [.construct 2, .press 5 5, .construct 1] := by
  have hone : Run [.construct 1] (new.construct 1) := .construct .new rfl
  obtain ⟨s, printed, hs⟩ : ∃ s printed,
      (new.construct 1).sigintHandler 5 5 = some (.returns s printed) := ⟨_, _, rfl⟩
  have hpress : Run [.press 5 5, .construct 1] s := .press hone hs
  have htwo : s.objects 2 = none := by
    cases hs
    rfl
  exact ⟨s.construct 2, .construct hpress htwo, signaled_since (.construct hpress htwo)⟩

/-! ## The end of memwatch -/

/-- What the handler remembers: the latest second, and how many presses before the latest one
were in it. -/
structure Remembers (s : Signals) (ts : List Nat) : Prop where
  time : s.recentCancelTime = ts.headD 0
  count : s.recentCancelCount = (ts.takeWhile (· = s.recentCancelTime)).length - 1

variable {ts : List Nat}

theorem Remembers.again (h : Remembers s ts) (hnow : now ≠ 0) (htime : s.recentCancelTime = now) :
    ∃ rest, ts = now :: rest ∧
      s.recentCancelCount = (rest.takeWhile (· = now)).length := by
  cases ts with
  | nil => exact absurd (htime.symm.trans h.time) hnow
  | cons t rest =>
    have ht : t = now := h.time.symm.trans htime
    have hcount := h.count
    rw [htime, List.takeWhile_cons_of_pos (by simpa using ht)] at hcount
    exact ⟨rest, by rw [ht], hcount⟩

theorem Remembers.first (h : Remembers s ts) (htime : s.recentCancelTime ≠ now) :
    ts.takeWhile (· = now) = [] := by
  cases ts with
  | nil => rfl
  | cons t rest =>
    have ht : t ≠ now := fun heq => htime (h.time.trans heq)
    exact List.takeWhile_cons_of_neg (by simpa using ht)

theorem Remembers.press (h : Remembers s ts) (hs : Registered s) (hnow : now ≠ 0)
    (hs' : s.sigintHandler now now = some (.returns s' printed)) : Remembers s' (now :: ts) := by
  have hpressed := hs.pressed now now
  rw [hs'] at hpressed
  cases hpressed with
  | again _ htime _ hs' =>
    obtain ⟨rest, rfl, hcount⟩ := h.again hnow htime
    subst hs'
    refine ⟨htime, ?_⟩
    show s.recentCancelCount + 1 = (List.takeWhile (· = s.recentCancelTime) _).length - 1
    rw [htime, hcount]
    simp
  | first _ htime hs' =>
    subst hs'
    refine ⟨rfl, ?_⟩
    show 0 = (List.takeWhile (· = now) (now :: ts)).length - 1
    rw [List.takeWhile_cons_of_pos (by simp), h.first htime]
    rfl

theorem Run.remembers (h : Run es s)
    (hsecond : ∀ now later, .press now later ∈ es → now = later ∧ now ≠ 0) :
    Remembers s (seconds es) := by
  induction h with
  | new => exact ⟨rfl, rfl⟩
  | construct _ _ ih =>
    have hrest := ih fun now later hmem => hsecond now later (.tail _ hmem)
    exact ⟨hrest.time, hrest.count⟩
  | destroy _ _ ih =>
    have hrest := ih fun now later hmem => hsecond now later (.tail _ hmem)
    exact ⟨hrest.time, hrest.count⟩
  | @press es s s' h now later printed hs' ih =>
    obtain ⟨rfl, hnow⟩ := hsecond now later (.head _)
    exact (ih fun now later hmem => hsecond now later (.tail _ hmem)).press h.registered hnow hs'

theorem two_of_takeWhile (h : 1 < (ts.takeWhile (· = now)).length) :
    ∃ rest, ts = now :: now :: rest := by
  have hall : ts.takeWhile (· = now) = List.replicate (ts.takeWhile (· = now)).length now :=
    List.eq_replicate_of_mem fun t ht => by simpa using List.mem_takeWhile_imp ht
  obtain ⟨n, hn⟩ := Nat.exists_eq_add_of_lt h
  have hsplit := List.takeWhile_append_dropWhile (p := (· = now)) (l := ts)
  rw [hall, hn, show 1 + n + 1 = n + 1 + 1 by omega, List.replicate_succ,
    List.replicate_succ] at hsplit
  exact ⟨_, hsplit.symm⟩

/-- Memwatch ends at a press if and only if the three presses before it came in the same
second, whether there is anything to cancel or not. -/
theorem exits_iff (h : Run es s)
    (hsecond : ∀ now later, .press now later ∈ es → now = later ∧ now ≠ 0) (hnow : now ≠ 0) :
    (∃ printed, s.sigintHandler now later = some (.exits printed)) ↔
      ∃ rest, seconds es = now :: now :: now :: rest := by
  have hremembers := h.remembers hsecond
  constructor
  · rintro ⟨printed, hexits⟩
    have hpressed := h.registered.pressed now later
    rw [hexits] at hpressed
    cases hpressed with
    | exits _ htime hcount =>
      obtain ⟨rest, hts, heq⟩ := hremembers.again hnow htime
      obtain ⟨rest', rfl⟩ := two_of_takeWhile (heq ▸ hcount)
      exact ⟨rest', hts⟩
  · rintro ⟨rest, hts⟩
    rw [hts] at hremembers
    have htime : s.recentCancelTime = now := hremembers.time
    have hcount : 1 < s.recentCancelCount := by
      rw [hremembers.count, htime]
      simp
    refine ⟨" -- no operation to cancel - terminating\n", ?_⟩
    unfold sigintHandler
    rw [if_pos htime, if_pos hcount]

/-- Three presses in one second, without an operation. -/
theorem exits_iff_fourth : ∃ s, Run [.press 5 5, .press 5 5, .press 5 5] s ∧
    ((∃ printed, s.sigintHandler 5 5 = some (.exits printed)) ↔
      ∃ rest, seconds [.press 5 5, .press 5 5, .press 5 5] = 5 :: 5 :: 5 :: rest) := by
  have hrun : Run [.press 5 5, .press 5 5, .press 5 5]
      { new with recentCancelTime := 5, recentCancelCount := 2 } :=
    .press (.press (.press .new rfl) rfl) rfl
  refine ⟨_, hrun, exits_iff hrun (fun now later hmem => ?_) (by decide)⟩
  rcases List.mem_cons.mp hmem with h | hmem
  · cases h; exact ⟨rfl, by decide⟩
  rcases List.mem_cons.mp hmem with h | hmem
  · cases h; exact ⟨rfl, by decide⟩
  · cases List.mem_singleton.mp hmem; exact ⟨rfl, by decide⟩

end Signals

end Memwatch
