import RecencyCache.Proofs.Sequence.Turns

/-!
# Sweeps

A predicate that is offered values in turn gives answers until it stops early or the values are through; `survey` tells
its answers, why it stopped, and the caller's state then, and knows of no list but that of the values.  A sweep is told
by the survey of the values of its list (`sweep_eq`): it leaves what the answers spare, and all that the predicate was
not asked about.  A predicate that notes the values offered to it notes the first ones, each once and in their order
(`survey_noting`).
-/

namespace RecencyCache

/-- The predicate, which also notes the values offered to it. -/
def Callback.noting {ν ω ε : Type} (matches? : ν → Callback ω ε Bool) (value : ν) : Callback (ω × List ν) ε Bool :=
  fun seen (caller, noted) =>
    match matches? value seen caller with
    | .ok matched caller => .ok matched (caller, noted ++ [value])
    | .error stop caller => .error stop (caller, noted ++ [value])

namespace Sequence

variable {κ ν ω ε β : Type}

/-! ### Surveys -/

/-- What a predicate that is offered values in turn comes to: its answers, one for each call that returned, why the
call after these stopped early, if one did, and the caller's state then. -/
structure Survey (ω ε : Type) where
  answers : List Bool
  stop : Option (Stop ε)
  caller : ω

/-- Puts an answer before those of a survey. -/
def Survey.after (matched : Bool) (s : Survey ω ε) : Survey ω ε :=
  { s with answers := matched :: s.answers }

/-- Offers values in turn to a predicate, until it stops early. -/
def survey (matches? : ν → Callback ω ε Bool) : List ν → ω → Survey ω ε
  | [], caller => { answers := [], stop := none, caller }
  | value :: values, caller =>
    match matches? value locked caller with
    | .error stop caller => { answers := [], stop := some stop, caller }
    | .ok matched caller => (survey matches? values caller).after matched

namespace Survey

/-- How many values matched. -/
def matched (s : Survey ω ε) : Nat :=
  s.answers.count true

/-- How often the predicate was called, the call that stopped early included. -/
def calls (s : Survey ω ε) : Nat :=
  s.answers.length + s.stop.toList.length

/-- The number that matched, unless the predicate has stopped early. -/
def outcome (s : Survey ω ε) : Except (Abort ε) Nat :=
  match s.stop with
  | none => .ok s.matched
  | some stop => .error stop.toAbort

@[simp] theorem answers_after (matched : Bool) (s : Survey ω ε) : (s.after matched).answers = matched :: s.answers :=
  rfl

@[simp] theorem caller_after (matched : Bool) (s : Survey ω ε) : (s.after matched).caller = s.caller := rfl

@[simp] theorem calls_after (matched : Bool) (s : Survey ω ε) : (s.after matched).calls = s.calls + 1 :=
  Nat.succ_add ..

@[simp] theorem matched_after (matched : Bool) (s : Survey ω ε) :
    (s.after matched).matched = s.matched + if matched then 1 else 0 := by
  unfold Survey.matched after
  rw [List.count_cons]
  cases matched <;> rfl

@[simp] theorem outcome_after (matched : Bool) (s : Survey ω ε) :
    (s.after matched).outcome = if matched then s.outcome.map (· + 1) else s.outcome := by
  unfold outcome
  rw [matched_after]
  unfold after
  cases matched <;> cases s.stop <;> rfl

end Survey

/-- The members for which the answer was not that they match, and those for which there is no answer. -/
def spared (answers : List Bool) (es : List β) : List β :=
  ((es.zip answers).filter fun e => !e.2).map (·.1) ++ es.drop answers.length

section

variable {matches? : ν → Callback ω ε Bool} {value : ν} {caller caller' : ω}

theorem survey_of_error {stop : Stop ε} (h : matches? value locked caller = .error stop caller') (values : List ν) :
    survey matches? (value :: values) caller = { answers := [], stop := some stop, caller := caller' } := by
  rw [survey, h]

theorem survey_of_ok {matched : Bool} (h : matches? value locked caller = .ok matched caller') (values : List ν) :
    survey matches? (value :: values) caller = (survey matches? values caller').after matched := by
  rw [survey, h]

private theorem noting_of_error {stop : Stop ε} (h : matches? value locked caller = .error stop caller')
    (noted : List ν) :
    Callback.noting matches? value locked (caller, noted) = .error stop (caller', noted ++ [value]) := by
  rw [Callback.noting, h]

private theorem noting_of_ok {matched : Bool} (h : matches? value locked caller = .ok matched caller')
    (noted : List ν) :
    Callback.noting matches? value locked (caller, noted) = .ok matched (caller', noted ++ [value]) := by
  rw [Callback.noting, h]

end

section

variable (matches? : ν → Callback ω ε Bool) (values : List ν) (caller : ω)

/-- Every value is offered once, unless the predicate stops early; then it stops at one of the values. -/
theorem survey_calls :
    ((survey matches? values caller).stop = none → (survey matches? values caller).calls = values.length) ∧
      (survey matches? values caller).calls ≤ values.length := by
  induction values generalizing caller with
  | nil => exact ⟨fun _ => rfl, Nat.le_refl _⟩
  | cons value values ih =>
    cases hrun : matches? value locked caller with
    | error stop caller' =>
      rw [survey_of_error hrun]
      exact ⟨nofun, Nat.succ_le_succ (Nat.zero_le _)⟩
    | ok matched caller' =>
      obtain ⟨hall, hle⟩ := ih caller'
      rw [survey_of_ok hrun, Survey.calls_after, List.length_cons]
      exact ⟨fun hstop => congrArg (· + 1) (hall hstop), Nat.succ_le_succ hle⟩

theorem survey_matched_le : (survey matches? values caller).matched ≤ values.length :=
  Nat.le_trans List.count_le_length
    (Nat.le_trans (Nat.le_add_right ..) (survey_calls matches? values caller).2)

/-- A predicate that notes what it is offered answers as it does without notes, and notes the values that it has been
called with. -/
theorem survey_noting (noted : List ν) :
    survey (Callback.noting matches?) values (caller, noted) =
      { answers := (survey matches? values caller).answers
        stop := (survey matches? values caller).stop
        caller := ((survey matches? values caller).caller,
          noted ++ values.take (survey matches? values caller).calls) } := by
  induction values generalizing caller noted with
  | nil =>
    rw [List.take_nil, List.append_nil]
    rfl
  | cons value values ih =>
    cases hrun : matches? value locked caller with
    | error stop caller' =>
      rw [survey_of_error hrun, survey_of_error (noting_of_error hrun noted)]
      rfl
    | ok matched caller' =>
      rw [survey_of_ok hrun, survey_of_ok (noting_of_ok hrun noted), ih, Survey.calls_after, List.take_succ_cons,
        List.append_assoc]
      rfl

end

/-! ### Sweeps -/

private theorem spared_nil (es : List β) : spared [] es = es := by
  simp [spared]

private theorem spared_cons (matched : Bool) (answers : List Bool) (e : β) (es : List β) :
    spared (matched :: answers) (e :: es) = if matched then spared answers es else e :: spared answers es := by
  cases matched <;> simp [spared]

/-- The turn of a sweep, as told by a survey of the values. -/
def Survey.turn (s : Survey ω ε) (es : List (κ × ν)) : Turn κ ν ω ε Nat :=
  { outcome := s.outcome, entries := spared s.answers es, caller := s.caller
    counted := List.replicate s.matched .predicateEviction }

/-- A sweep goes as the survey of the values. -/
theorem sweep_eq (matches? : ν → Callback ω ε Bool) (es : List (κ × ν)) (caller : ω) :
    sweep matches? es caller = (survey matches? (es.map (·.2)) caller).turn es := by
  induction es generalizing caller with
  | nil => rfl
  | cons e es ih =>
    unfold sweep
    rw [List.map_cons]
    cases hrun : matches? e.2 locked caller with
    | error stop caller' =>
      rw [survey_of_error hrun]
      unfold Survey.turn
      rw [spared_nil]
      rfl
    | ok matched caller' =>
      rw [survey_of_ok hrun]
      cases matched with
      | true =>
        dsimp only
        rw [ih]
        simp [Survey.turn, Turn.counting, Turn.map, spared_cons, List.replicate_succ]
      | false =>
        dsimp only
        rw [ih]
        simp [Survey.turn, Turn.keeping, spared_cons]

/-- Offering every value once goes as the survey of the values: it logs how many have matched, if any have and the
predicate has not stopped early. -/
theorem removeIf_turn (matches? : ν → Callback ω ε Bool) (es : List (κ × ν)) (caller : ω) {s : Survey ω ε}
    (hs : survey matches? (es.map (·.2)) caller = s) :
    removeIf matches? es caller =
      { s.turn es with
        logged := if s.stop.isNone ∧ 0 < s.matched then [.swept s.matched (spared s.answers es).length] else [] } := by
  unfold removeIf
  rw [sweep_eq, hs]
  unfold Turn.andThen Survey.turn Survey.outcome
  dsimp only
  cases s.stop with
  | none => simp
  | some stop => simp

/-- What a survey of the values tells of offering every value once. -/
theorem removeIf_survey (matches? : ν → Callback ω ε Bool) (es : List (κ × ν)) (caller : ω) {s : Survey ω ε}
    (hs : survey matches? (es.map (·.2)) caller = s) :
    (removeIf matches? es caller).outcome = s.outcome ∧ (removeIf matches? es caller).entries = spared s.answers es ∧
      (removeIf matches? es caller).caller = s.caller ∧
      ∀ c, tally (removeIf matches? es caller).counted c = if c = .predicateEvictions then s.matched else 0 := by
  rw [removeIf_turn matches? es caller hs]
  refine ⟨rfl, rfl, rfl, fun c => ?_⟩
  show tally (List.replicate s.matched .predicateEviction) c = _
  rw [tally_replicate]
  cases c <;> simp [Metrics.Happening.counters]

end Sequence

end RecencyCache
