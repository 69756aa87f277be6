import RecencyCache.Proofs.Cache.Views

/-!
# Calls whose callbacks take notes

A callback that takes notes goes as it did before, and writes down which callback it is, the value offered to it and
how the cache rendered when it was called.  A call whose callbacks take notes goes as it did before in every other
respect (`Op.noted_apply`): it ends the same way, leaves the same cache and the same log, and the notes tell which of
its callbacks have run, in which order and on what.  No callback sees more of the cache than that it is held.
-/

namespace RecencyCache

open Sequence (locked)

variable {κ ν ρ ω ε α β σ τ : Type}

/-- A callback of a call, with the value that is offered to it. -/
inductive Asking (ν : Type) where
  | evictIf (value : ν)
  | update (value : ν)
  | view (value : ν)
  | matches? (value : ν)
  | make
deriving DecidableEq

/-- What a callback writes down when it is called. -/
structure Note (ν : Type) where
  asking : Asking ν
  seen : Outline

/-- What a callback writes down that sees how the cache renders while it is held. -/
def Asking.note (asking : Asking ν) : Note ν :=
  ⟨asking, locked⟩

/-- A result in which the state is told in another way. -/
def onState (f : σ → τ) : EStateM.Result ε σ α → EStateM.Result ε τ α
  | .ok a s => .ok a (f s)
  | .error e s => .error e (f s)

private theorem onState_ok (f : σ → τ) (a : α) (s : σ) : onState f (.ok a s : EStateM.Result ε σ α) = .ok a (f s) := rfl

private theorem onState_error (f : σ → τ) (e : ε) (s : σ) :
    onState f (.error e s : EStateM.Result ε σ α) = .error e (f s) := rfl

/-! ### Callbacks -/

/-- The callback, taking notes of its calls as those of `asking`. -/
def Callback.noted (asking : Asking ν) (run : Callback ω ε α) : Callback (ω × List (Note ν)) ε α :=
  fun seen (caller, notes) => onState (·, notes ++ [⟨asking, seen⟩]) (run seen caller)

/-- The update, taking notes of its calls. -/
def Update.noted (update : Update ν ω ε) : Update ν (ω × List (Note ν)) ε := fun seen (value, caller, notes) =>
  onState (fun s => (s.1, s.2, notes ++ [⟨.update value, seen⟩])) (update seen (value, caller))

/-- The callback `run'` goes as `run` goes, and notes `asked`. -/
def Callback.Notes (run : Callback ω ε α) (run' : Callback (ω × List (Note ν)) ε α) (asked : List (Asking ν)) :
    Prop :=
  ∀ seen caller notes, run' seen (caller, notes) =
    onState (·, notes ++ asked.map fun asking => ⟨asking, seen⟩) (run seen caller)

/-- The update `update'` goes as `update` goes, and notes `asked` of the value offered to it. -/
def Update.Notes (update : Update ν ω ε) (update' : Update ν (ω × List (Note ν)) ε) (asked : ν → List (Asking ν)) :
    Prop :=
  ∀ seen value caller notes, update' seen (value, caller, notes) =
    onState (fun s => (s.1, s.2, notes ++ (asked value).map fun asking => ⟨asking, seen⟩)) (update seen (value, caller))

theorem Callback.noted_notes (asking : Asking ν) (run : Callback ω ε α) : run.Notes (run.noted asking) [asking] :=
  fun _ _ _ => rfl

private theorem Update.noted_notes (update : Update ν ω ε) :
    update.Notes (Update.noted update) fun value => [.update value] :=
  fun _ _ _ _ => rfl

theorem keepAll_notes (value : ν) :
    (Sequence.keepAll value : Callback ω ε Bool).Notes (Sequence.keepAll value) ([] : List (Asking ν)) := by
  intro seen caller notes
  rw [List.map_nil, List.append_nil]
  rfl

theorem keep_notes : (Update.keep : Update ν ω ε).Notes Update.keep fun _ => [] := by
  intro seen value caller notes
  rw [List.map_nil, List.append_nil]
  rfl

/-- Where callbacks cannot fail, notes are taken as where they can. -/
private theorem Callback.Notes.widen {run : Callback ω Empty α} {run' : Callback (ω × List (Note ν)) Empty α}
    {asked : List (Asking ν)} (h : run.Notes run' asked) :
    (Callback.widen run : Callback ω ε α).Notes run'.widen asked := by
  intro seen caller notes
  unfold Callback.widen
  rw [h]
  cases run seen caller <;> rfl

variable [BEq κ] [Hashable κ]

/-- The world of a caller who has taken notes. -/
def World.noted (w : World κ ν ω) (notes : List (Note ν)) : World κ ν (ω × List (Note ν)) where
  cache := w.cache
  log := w.log
  caller := (w.caller, notes)

/-! ### Effects -/

/-- From `w` on `x'` goes as `x` goes, and notes `asked`, always while the cache is held. -/
def Effect.Notes (x : Effect κ ν ω ε α) (x' : Effect κ ν (ω × List (Note ν)) ε α) (w : World κ ν ω)
    (asked : List (Asking ν)) : Prop :=
  ∀ notes, x' (w.noted notes) = onState (·.noted (notes ++ asked.map Asking.note)) (x w)

namespace Effect.Notes

variable {x : Effect κ ν ω ε α} {x' : Effect κ ν (ω × List (Note ν)) ε α} {w w' : World κ ν ω}
  {f : α → Effect κ ν ω ε β} {f' : α → Effect κ ν (ω × List (Note ν)) ε β} {asked asked' : List (Asking ν)} {a : α}
  {e : Abort ε}

/-- What calls no callback takes no notes. -/
private theorem silent (h : ∀ notes, x' (w.noted notes) = onState (·.noted notes) (x w)) : Notes x x' w [] := by
  intro notes
  rw [List.map_nil, List.append_nil]
  exact h notes

theorem pure (a : α) (w : World κ ν ω) :
    Notes (Pure.pure a : Effect κ ν ω ε α) (Pure.pure a) w [] :=
  silent fun _ => rfl

private theorem throw (e : Abort ε) (w : World κ ν ω) :
    Notes (throw e : Effect κ ν ω ε α) (throw e) w [] :=
  silent fun _ => rfl

private theorem ask (f : Cache κ ν → α) (w : World κ ν ω) : Notes (ask f : Effect κ ν ω ε α) (Effect.ask f) w [] :=
  silent fun _ => rfl

private theorem change (f : Cache κ ν → Cache κ ν) (w : World κ ν ω) :
    Notes (change f : Effect κ ν ω ε Unit) (Effect.change f) w [] :=
  silent fun _ => rfl

private theorem changeGet (f : Cache κ ν → α × Cache κ ν) (w : World κ ν ω) :
    Notes (changeGet f : Effect κ ν ω ε α) (Effect.changeGet f) w [] :=
  silent fun _ => rfl

private theorem say (event : Cache κ ν → Event) (w : World κ ν ω) :
    Notes (say event : Effect κ ν ω ε Unit) (Effect.say event) w [] :=
  silent fun _ => rfl

private theorem count (what : Metrics.Happening) (w : World κ ν ω) :
    Notes (count what : Effect κ ν ω ε Unit) (Effect.count what) w [] := by
  refine silent fun notes => ?_
  unfold Effect.count World.noted
  cases Metrics.record what w.cache.metrics <;> rfl

/-- Reading the cache first only says how to go on. -/
private theorem ask_bind {g : Cache κ ν → α} (h : Notes (f (g w.cache)) (f' (g w.cache)) w asked) :
    Notes (Effect.ask g >>= f) (Effect.ask g >>= f') w asked :=
  h

/-- What goes the same from `w` on takes the same notes. -/
theorem congr {y : Effect κ ν ω ε α} {y' : Effect κ ν (ω × List (Note ν)) ε α} (h : Notes y y' w asked)
    (hx : x w = y w) (hx' : ∀ notes, x' (w.noted notes) = y' (w.noted notes)) : Notes x x' w asked := by
  intro notes
  rw [hx, hx']
  exact h notes

theorem bind_of_ok (hx : Notes x x' w asked) (hok : x w = .ok a w') (hf : Notes (f a) (f' a) w' asked') :
    Notes (x >>= f) (x' >>= f') w (asked ++ asked') := by
  intro notes
  have hx' := hx notes
  rw [hok, onState_ok] at hx'
  rw [Effect.bind_of_ok hok, Effect.bind_of_ok hx', hf, List.append_assoc, List.map_append]

private theorem bind_of_error (hx : Notes x x' w asked) (herror : x w = .error e w') :
    Notes (x >>= f) (x' >>= f') w asked := by
  intro notes
  have hx' := hx notes
  rw [herror, onState_error] at hx'
  rw [Effect.bind_of_error herror, Effect.bind_of_error hx', onState_error]

/-- What goes on without calling a callback adds no notes. -/
theorem bind (hx : Notes x x' w asked) (hf : ∀ a w', Notes (f a) (f' a) w' []) :
    Notes (x >>= f) (x' >>= f') w asked := by
  cases hxw : x w with
  | ok a w' =>
    rw [← List.append_nil asked]
    exact hx.bind_of_ok hxw (hf a w')
  | error e w' => exact hx.bind_of_error hxw

private theorem map (hx : Notes x x' w asked) (g : α → β) : Notes (g <$> x) (g <$> x') w asked := by
  rw [map_eq_pure_bind, map_eq_pure_bind]
  exact hx.bind fun a w' => pure (g a) w'

theorem exclusively (hx : Notes x x' w.hold asked) : Notes (exclusively x) (exclusively x') w asked := by
  intro notes
  have hx' := hx notes
  unfold World.hold World.noted at hx'
  unfold Effect.exclusively World.noted
  dsimp only at hx' ⊢
  rw [hx']
  cases x { w with cache := { w.cache with held := true } } <;> rfl

private theorem widen {x : Effect κ ν ω Empty α} {x' : Effect κ ν (ω × List (Note ν)) Empty α}
    (hx : Notes x x' w asked) :
    Notes (widen x : Effect κ ν ω ε α) (Effect.widen x') w asked := by
  intro notes
  unfold Effect.widen
  rw [hx notes]
  cases x w <;> rfl

variable [EquivBEq κ] [LawfulHashable κ]

theorem call (hd : w.cache.held = true) {run : Callback ω ε α} {run' : Callback (ω × List (Note ν)) ε α}
    (h : run.Notes run' asked) : Notes (call run) (Effect.call run') w asked := by
  intro notes
  have hrun := h locked w.caller notes
  unfold Effect.call World.noted
  dsimp only
  rw [Cache.outline_of_held hd, hrun]
  cases run locked w.caller <;> rfl

private theorem edit (hd : w.cache.held = true) {s : Nat} {key : κ} {value : ν}
    (hs : w.cache.order.get? s = some (key, value))
    {update : Update ν ω ε} {update' : Update ν (ω × List (Note ν)) ε} {asked : ν → List (Asking ν)}
    (h : update.Notes update' asked) : Notes (edit s update) (Effect.edit s update') w (asked value) := by
  intro notes
  have hrun := h locked value w.caller notes
  unfold Effect.edit World.noted
  dsimp only
  rw [Cache.outline_of_held hd, hs]
  dsimp only
  rw [hrun]
  cases update locked (value, w.caller) <;> rfl

end Effect.Notes

/-! ### Operations -/

namespace Cache

open Effect

/-- The call, with all of its callbacks taking notes. -/
def Op.noted : Op κ ν ρ ω ε → Op κ ν ρ (ω × List (Note ν)) ε
  | put k value => put k value
  | get k => get k
  | getWith k view => getWith k fun value => (view value).noted (.view value)
  | getAndUpdate k update => getAndUpdate k (Update.noted update)
  | getOrEvict k update evictIf =>
    getOrEvict k (Update.noted update) fun value => (evictIf value).noted (.evictIf value)
  | tryGetOrEvict k update evictIf =>
    tryGetOrEvict k (Update.noted update) fun value => (evictIf value).noted (.evictIf value)
  | containsKey k => containsKey k
  | existsOrEvict k update evictIf =>
    existsOrEvict k (Update.noted update) fun value => (evictIf value).noted (.evictIf value)
  | tryExistsOrEvict k update evictIf =>
    tryExistsOrEvict k (Update.noted update) fun value => (evictIf value).noted (.evictIf value)
  | remove k => remove k
  | removeIf matches? => removeIf fun value => (matches? value).noted (.matches? value)
  | tryRemoveIf matches? => tryRemoveIf fun value => (matches? value).noted (.matches? value)
  | getOrInsertWith k make => getOrInsertWith k (make.noted .make)
  | tryGetOrInsertWith k make => tryGetOrInsertWith k (make.noted .make)
  | clear => clear

variable [EquivBEq κ] [LawfulHashable κ]

/-- A lookup calls its predicate on the value that it finds, and then its update if the predicate lets the entry be. -/
def lookupAsks (evictIfAsks updateAsks : ν → List (Asking ν)) (k : κ) (evictIf : ν → Callback ω ε Bool)
    (w : World κ ν ω) : List (Asking ν) :=
  match w.cache.find? k with
  | none => []
  | some (_, _, value) =>
    match evictIf value locked w.caller with
    | .ok false _ => evictIfAsks value ++ updateAsks value
    | _ => evictIfAsks value

variable {w : World κ ν ω} {k : κ}

private theorem lookup_notes (hd : w.cache.held = true) {update : Update ν ω ε} {evictIf : ν → Callback ω ε Bool}
    {update' : Update ν (ω × List (Note ν)) ε} {evictIf' : ν → Callback (ω × List (Note ν)) ε Bool}
    {updateAsks evictIfAsks : ν → List (Asking ν)} (hu : update.Notes update' updateAsks)
    (he : ∀ value, (evictIf value).Notes (evictIf' value) (evictIfAsks value)) :
    Notes (lookup k update evictIf) (lookup k update' evictIf') w (lookupAsks evictIfAsks updateAsks k evictIf w) := by
  refine Notes.ask_bind ?_
  unfold lookupAsks
  cases hf : w.cache.find? k with
  | none => exact (Notes.count _ _).bind fun _ _ => Notes.pure _ _
  | some found =>
    obtain ⟨s, key, value⟩ := found
    dsimp only
    have hcall := Notes.call hd (he value)
    cases hrun : evictIf value locked w.caller with
    | error stop caller => exact hcall.bind_of_error (call_of_error hd hrun)
    | ok matched caller =>
      cases matched with
      | true =>
        rw [← List.append_nil (evictIfAsks value)]
        refine hcall.bind_of_ok (call_of_ok hd hrun) ?_
        exact (Notes.changeGet _ _).bind fun _ _ => (Notes.count _ _).bind fun _ _ => (Notes.count _ _).bind fun _ _ =>
          (Notes.say _ _).bind fun _ _ => Notes.pure _ _
      | false =>
        refine hcall.bind_of_ok (call_of_ok hd hrun) ?_
        have hedit : Notes (edit s update) (edit s update') { w with caller } (updateAsks value) :=
          Notes.edit (w := { w with caller }) hd (get?_of_find? hf) hu
        exact hedit.bind fun _ _ => (Notes.change _ _).bind fun _ _ => (Notes.count _ _).bind fun _ _ => Notes.pure _ _

private theorem evictOldest_notes (w : World κ ν ω) : Notes (evictOldest : Effect κ ν ω ε _) evictOldest w [] := by
  refine (Notes.ask _ w).bind fun back w => ?_
  cases back with
  | none => exact Notes.pure _ w
  | some s =>
    refine (Notes.changeGet _ w).bind fun entry w => ?_
    cases entry with
    | none => exact Notes.pure _ w
    | some entry => exact (Notes.count _ w).bind fun _ w => (Notes.say _ w).bind fun _ w => Notes.pure _ w

private theorem insertNew_notes (k : κ) (value : ν) (w : World κ ν ω) :
    Notes (insertNew k value : Effect κ ν ω ε _) (insertNew k value) w [] := by
  have hrest (evicted : Option (κ × ν)) (w : World κ ν ω) :
      Notes (do change (·.link k value); count .insertion; return evicted : Effect κ ν ω ε _)
        (do change (·.link k value); count .insertion; return evicted) w [] :=
    (Notes.change _ w).bind fun _ w => (Notes.count _ w).bind fun _ w => Notes.pure _ w
  refine (Notes.ask _ w).bind fun full w => ?_
  cases full with
  | true => exact (evictOldest_notes w).bind hrest
  | false => exact (Notes.pure none w).bind hrest

theorem put_notes (k : κ) (value : ν) (w : World κ ν ω) :
    Notes (put k value : Effect κ ν ω ε _) (put k value) w [] := by
  refine Notes.exclusively ((Notes.ask _ _).bind fun found w => ?_)
  cases found with
  | none => exact insertNew_notes k value w
  | some found =>
    exact (Notes.change _ w).bind fun _ w => (Notes.change _ w).bind fun _ w => (Notes.count _ w).bind fun _ w =>
      Notes.pure _ w

private theorem remove_notes (k : κ) (w : World κ ν ω) : Notes (remove k : Effect κ ν ω ε _) (remove k) w [] := by
  refine Notes.exclusively ((Notes.changeGet _ _).bind fun entry w => ?_)
  cases entry with
  | none => exact Notes.pure _ w
  | some entry => exact (Notes.count _ w).bind fun _ w => Notes.pure _ w

/-- A sweep takes notes as well, as many as there are values that it comes to offer. -/
private theorem sweepFrom_notes (matches? : ν → Callback ω ε Bool) (fuel : Nat) (s? : Option Nat) (removed : Nat)
    {w : World κ ν ω} (hd : w.cache.held = true) :
    ∃ asked, Notes (sweepFrom matches? fuel s? removed)
      (sweepFrom (fun value => (matches? value).noted (.matches? value)) fuel s? removed) w asked := by
  induction fuel generalizing s? removed w with
  | zero =>
    cases s? with
    | none => exact ⟨[], Notes.pure _ _⟩
    | some s => exact ⟨[], Notes.throw _ _⟩
  | succ fuel ih =>
    cases s? with
    | none => exact ⟨[], Notes.pure _ _⟩
    | some s =>
      suffices hsweep : ∃ asked, Notes _ _ w asked from
        hsweep.imp fun asked hasked => Notes.ask_bind (Notes.ask_bind hasked)
      cases hs : w.cache.order.get? s with
      | none =>
        dsimp only
        rw [pure_bind, pure_bind]
        exact ih _ removed hd
      | some entry =>
        dsimp only
        have hcall := Notes.call (ε := ε) hd ((matches? entry.2).noted_notes (.matches? entry.2))
        cases hrun : matches? entry.2 locked w.caller with
        | error stop caller => exact ⟨_, hcall.bind_of_error (call_of_error hd hrun)⟩
        | ok matched caller =>
          suffices hsweep : ∃ asked, Notes _ _ { w with caller } asked from
            hsweep.imp' _ fun asked hasked => hcall.bind_of_ok (call_of_ok hd hrun) hasked
          cases matched with
          | false => exact ih _ removed hd
          | true =>
            have hunlinked : (w.cache.unlink s).2.held = true := (rearranged_unlink w.cache s).held.trans hd
            have hunlink : (changeGet (·.unlink s) : Effect κ ν ω ε _) { w with caller } =
                .ok (w.cache.unlink s).1 { w with cache := (w.cache.unlink s).2, caller } := rfl
            suffices hsweep : ∃ asked, Notes _ _ { w with cache := (w.cache.unlink s).2, caller } asked from
              hsweep.imp' _ fun asked hasked => (Notes.changeGet _ _).bind_of_ok hunlink hasked
            cases (w.cache.unlink s).1 with
            | none => exact ih _ removed hunlinked
            | some dropped =>
              have hcount := Notes.count (ε := ε) .predicateEviction { w with cache := (w.cache.unlink s).2, caller }
              rcases count_cases (ε := ε) .predicateEviction { w with cache := (w.cache.unlink s).2, caller } with
                ⟨m, hm, -⟩ | ⟨m, hm, -⟩
              · suffices hsweep : ∃ asked, Notes _ _ _ asked from
                  hsweep.imp' _ fun asked hasked => hcount.bind_of_ok hm hasked
                exact ih _ (removed + 1) hunlinked
              · exact ⟨_, hcount.bind_of_error hm⟩

private theorem tryRemoveIf_notes (matches? : ν → Callback ω ε Bool) (w : World κ ν ω) :
    ∃ asked, Notes (tryRemoveIf matches?) (tryRemoveIf fun value => (matches? value).noted (.matches? value)) w
      asked := by
  obtain ⟨asked, hsweep⟩ := sweepFrom_notes matches? w.hold.cache.order.slots.size w.hold.cache.order.front 0
    (w := w.hold) rfl
  refine ⟨asked, Notes.exclusively (Notes.ask_bind (Notes.ask_bind (hsweep.bind fun removed w => ?_)))⟩
  dsimp only
  split
  · exact (Notes.say _ w).bind fun _ w => Notes.pure _ w
  · exact Notes.pure _ w

/-- A call that makes a value on demand calls what makes it if there is no entry, and nothing else. -/
def factoryAsks (k : κ) (w : World κ ν ω) : List (Asking ν) :=
  match w.cache.find? k with
  | none => [.make]
  | some _ => []

theorem tryGetOrInsertWith_notes (k : κ) (make : Callback ω ε ν) (w : World κ ν ω) :
    Notes (tryGetOrInsertWith k make) (tryGetOrInsertWith k (make.noted .make)) w (factoryAsks k w) := by
  refine Notes.exclusively (Notes.ask_bind ?_)
  have hheld : w.hold.cache.find? k = w.cache.find? k := rfl
  unfold factoryAsks
  rw [hheld]
  cases w.cache.find? k with
  | none =>
    have hcall : Notes (call make) (call (make.noted .make)) w.hold [.make] := Notes.call rfl (make.noted_notes _)
    exact hcall.bind fun value w => (Notes.count _ w).bind fun _ w => (insertNew_notes k value w).bind fun _ w =>
      Notes.pure _ w
  | some found => exact (Notes.change _ _).bind fun _ w => (Notes.count _ w).bind fun _ w => Notes.pure _ w

/-- A view is called if there is an entry, once the touch has been counted as a hit, and nothing else is. -/
def viewAsks (k : κ) (w : World κ ν ω) : List (Asking ν) :=
  match w.cache.find? k with
  | none => []
  | some (_, _, value) => if w.cache.metrics.Fits .hit then [.view value] else []

private theorem getWith_notes (h : w.cache.Ready) (k : κ) (view : ν → Callback ω Empty α) :
    Notes (getWith k view : Effect κ ν ω ε _) (getWith k fun value => (view value).noted (.view value)) w
      (viewAsks k w) := by
  unfold viewAsks
  cases hf : w.cache.find? k with
  | none =>
    refine .congr ?_ (getWith_of_none hf view) fun notes => getWith_of_none (w := w.noted notes) hf _
    exact Notes.exclusively ((Notes.count _ _).bind fun _ w => Notes.pure _ w)
  | some found =>
    obtain ⟨s, key, value⟩ := found
    refine .congr ?_ (getWith_of_some h.coherent hf view) fun notes =>
      getWith_of_some (w := w.noted notes) h.coherent hf _
    dsimp only
    refine Notes.exclusively ?_
    have hview (w : World κ ν ω) (hd : w.cache.held = true) :
        Notes (do return some (← call (view value).widen) : Effect κ ν ω ε _)
          (do return some (← call ((view value).noted (.view value)).widen)) w [.view value] :=
      (Notes.call hd ((view value).noted_notes (.view value)).widen).bind fun _ w => Notes.pure _ w
    have htouch : (change (·.touch s) : Effect κ ν ω ε Unit) w.hold =
        .ok () { w.hold with cache := w.hold.cache.touch s } := rfl
    have htouched := Notes.change (ε := ε) (·.touch s) w.hold
    have hcount := Notes.count (ε := ε) .hit { w.hold with cache := w.hold.cache.touch s }
    by_cases hfits : w.cache.metrics.Fits .hit
    · rw [if_pos hfits]
      obtain ⟨m, hm, -⟩ := count_of_fits (ε := ε) (w := { w.hold with cache := w.hold.cache.touch s }) hfits
      exact htouched.bind_of_ok htouch (hcount.bind_of_ok hm (hview _ rfl))
    · rw [if_neg hfits]
      obtain ⟨m, hm⟩ := count_of_not_fits (ε := ε) (w := { w.hold with cache := w.hold.cache.touch s }) hfits
      exact htouched.bind_of_ok htouch (hcount.bind_of_error hm)

/-- The callbacks that a call other than a sweep calls, in their order and with the values offered to them. -/
def Op.asks (w : World κ ν ω) : Op κ ν ρ ω ε → List (Asking ν)
  | .getWith k _ => viewAsks k w
  | .getAndUpdate k _ => lookupAsks (fun _ => []) (fun value => [.update value]) k (Sequence.keepAll (ε := Empty)) w
  | .getOrEvict k _ evictIf | .existsOrEvict k _ evictIf =>
    lookupAsks (fun value => [.evictIf value]) (fun value => [.update value]) k evictIf w
  | .tryGetOrEvict k _ evictIf | .tryExistsOrEvict k _ evictIf =>
    lookupAsks (fun value => [.evictIf value]) (fun value => [.update value]) k evictIf w
  | .getOrInsertWith k _ | .tryGetOrInsertWith k _ => factoryAsks k w
  | _ => []

theorem tryGetOrEvict_notes {update : Update ν ω ε} {evictIf : ν → Callback ω ε Bool}
    {update' : Update ν (ω × List (Note ν)) ε} {evictIf' : ν → Callback (ω × List (Note ν)) ε Bool}
    {updateAsks evictIfAsks : ν → List (Asking ν)} (hu : update.Notes update' updateAsks)
    (he : ∀ value, (evictIf value).Notes (evictIf' value) (evictIfAsks value)) (k : κ) (w : World κ ν ω) :
    Notes (tryGetOrEvict k update evictIf) (tryGetOrEvict k update' evictIf') w
      (lookupAsks evictIfAsks updateAsks k evictIf w) := by
  refine Notes.exclusively ((lookup_notes (w := w.hold) rfl hu he).bind fun s? w => ?_)
  cases s? with
  | none => exact Notes.pure _ w
  | some s => exact Notes.ask _ w

private theorem tryExistsOrEvict_notes (k : κ) (update : Update ν ω ε) (evictIf : ν → Callback ω ε Bool)
    (w : World κ ν ω) :
    Notes (tryExistsOrEvict k update evictIf)
      (tryExistsOrEvict k (Update.noted update) fun value => (evictIf value).noted (.evictIf value)) w
      (lookupAsks (fun value => [.evictIf value]) (fun value => [.update value]) k evictIf w) :=
  Notes.exclusively ((lookup_notes (w := w.hold) rfl update.noted_notes fun value =>
    (evictIf value).noted_notes _).bind fun _ w => Notes.pure _ w)

theorem lookupAsks_nil (k : κ) (evictIf : ν → Callback ω ε Bool) (w : World κ ν ω) :
    lookupAsks (fun _ => []) (fun _ => []) k evictIf w = [] := by
  unfold lookupAsks
  split
  · rfl
  · split <;> rfl

/-- A call whose callbacks take notes goes as it does without them. -/
theorem Op.noted_perform (h : w.cache.Ready) (op : Op κ ν ρ ω ε) :
    ∃ asked, Notes op.perform op.noted.perform w asked ∧ (op.predicate? = none → asked = op.asks w) := by
  have hlookup {ε' : Type} (k : κ) (update : Update ν ω ε') (evictIf : ν → Callback ω ε' Bool) :=
    tryGetOrEvict_notes update.noted_notes (fun value => (evictIf value).noted_notes (.evictIf value)) k w
  cases op with
  | put k value => exact ⟨[], (put_notes k value w).map _, fun _ => rfl⟩
  | get k =>
    refine ⟨[], ?_, fun _ => rfl⟩
    have hget := tryGetOrEvict_notes (keep_notes (ε := Empty)) keepAll_notes k w
    rw [lookupAsks_nil] at hget
    exact hget.widen.map _
  | getWith k view => exact ⟨_, (getWith_notes h k view).map _, fun _ => rfl⟩
  | getAndUpdate k update =>
    have hget := tryGetOrEvict_notes (update.noted_notes) keepAll_notes k w
    exact ⟨_, hget.widen.map _, fun _ => rfl⟩
  | getOrEvict k update evictIf => exact ⟨_, (hlookup k update evictIf).widen.map _, fun _ => rfl⟩
  | tryGetOrEvict k update evictIf => exact ⟨_, (hlookup k update evictIf).map _, fun _ => rfl⟩
  | containsKey k => exact ⟨[], (Notes.exclusively (Notes.ask _ _)).map _, fun _ => rfl⟩
  | existsOrEvict k update evictIf =>
    exact ⟨_, (tryExistsOrEvict_notes k update evictIf w).widen.map _, fun _ => rfl⟩
  | tryExistsOrEvict k update evictIf => exact ⟨_, (tryExistsOrEvict_notes k update evictIf w).map _, fun _ => rfl⟩
  | remove k => exact ⟨[], (remove_notes k w).map _, fun _ => rfl⟩
  | removeIf matches? =>
    obtain ⟨asked, hasked⟩ := tryRemoveIf_notes matches? w
    exact ⟨asked, hasked.widen.map _, nofun⟩
  | tryRemoveIf matches? =>
    obtain ⟨asked, hasked⟩ := tryRemoveIf_notes matches? w
    exact ⟨asked, hasked.map _, nofun⟩
  | getOrInsertWith k make => exact ⟨_, (tryGetOrInsertWith_notes k make w).widen.map _, fun _ => rfl⟩
  | tryGetOrInsertWith k make => exact ⟨_, (tryGetOrInsertWith_notes k make w).map _, fun _ => rfl⟩
  | clear =>
    exact ⟨[], (Notes.exclusively ((Notes.say _ _).bind fun _ w => Notes.change _ w)).map _, fun _ => rfl⟩

/-- What the callbacks of a call have noted, and that it ends and leaves the cache and the log as it does otherwise. -/
theorem Op.noted_apply (h : w.cache.Ready) (op : Op κ ν ρ ω ε) :
    ∃ asked : List (Asking ν), (op.predicate? = none → asked = op.asks w) ∧ ∀ notes,
      op.noted.apply (w.noted notes) = ((op.apply w).1, (op.apply w).2.noted (notes ++ asked.map Asking.note)) := by
  obtain ⟨asked, hnotes, hasks⟩ := op.noted_perform h
  refine ⟨asked, hasks, fun notes => ?_⟩
  unfold Op.apply
  rw [hnotes notes]
  cases op.perform w <;> rfl

end Cache

end RecencyCache
