import RecencyCache.Proofs.Cache.Holds
import RecencyCache.Proofs.Metrics
import RecencyCache.Proofs.Sequence

/-!
# Effects that meet a turn

An effect meets a turn of the plain sequence when it ends as the turn does, leaves a cache that holds the entries of
the turn, and has counted and logged what the turn asks for; or when one of the counters asked for overflows, and then
the cache still holds some list of entries.  The lemmas here say how the pieces of an operation meet the pieces of a
turn: `Meets.change` for changing the entries, `Meets.count` for counting, `Meets.say` for logging, `Meets.bind` for
going on, `Meets.exclusively` for holding.
-/

namespace RecencyCache

open Sequence (Turn tally tally_append tally_cons)

variable {κ ν ω ε α β γ δ : Type} [BEq κ] [Hashable κ]

/-! ### What single changes leave alone -/

namespace Cache

/-- Nothing but the order and the index has changed. -/
structure Rearranged (c c' : Cache κ ν) : Prop where
  config : c'.config = c.config
  metrics : c'.metrics = c.metrics
  held : c'.held = c.held

theorem rearranged_setValue (c : Cache κ ν) (s : Nat) (value : ν) : c.Rearranged (c.setValue s value) := by
  unfold setValue
  split <;> exact ⟨rfl, rfl, rfl⟩

theorem rearranged_touch (c : Cache κ ν) (s : Nat) : c.Rearranged (c.touch s) :=
  ⟨rfl, rfl, rfl⟩

theorem rearranged_drop (c : Cache κ ν) : c.Rearranged c.drop :=
  ⟨rfl, rfl, rfl⟩

section

variable [EquivBEq κ] [LawfulHashable κ]

theorem rearranged_link (c : Cache κ ν) (key : κ) (value : ν) : c.Rearranged (c.link key value) :=
  ⟨rfl, rfl, rfl⟩

theorem rearranged_unlink (c : Cache κ ν) (s : Nat) : c.Rearranged (c.unlink s).2 := by
  unfold unlink
  split <;> exact ⟨rfl, rfl, rfl⟩

theorem rearranged_takeOut (c : Cache κ ν) (k : κ) : c.Rearranged (c.takeOut k).2 := by
  unfold takeOut
  split <;> exact ⟨rfl, rfl, rfl⟩

/-- A held cache renders as locked. -/
theorem outline_of_held {c : Cache κ ν} (h : c.held = true) : c.outline = Sequence.locked := by
  simp [outline, h, Sequence.locked]

end

end Cache

/-! ### Counting -/

/-- Counting a happening adds to its counters, or one of them overflows. -/
theorem count_cases (what : Metrics.Happening) (w : World κ ν ω) :
    (∃ m, (Effect.count what : Effect κ ν ω ε Unit) w = .ok () { w with cache := { w.cache with metrics := m } } ∧
        ∀ c, (m.get c).toNat = (w.cache.metrics.get c).toNat + what.counters.count c) ∨
      (∃ m, (Effect.count what : Effect κ ν ω ε Unit) w =
          .error (.faulted .addOverflow) { w with cache := { w.cache with metrics := m } } ∧
        ∃ c, UInt64.size ≤ (w.cache.metrics.get c).toNat + what.counters.count c) := by
  unfold Effect.count
  rcases Metrics.record_cases what w.cache.metrics with ⟨m, hm, h⟩ | ⟨m, hm, h⟩
  · rw [hm]
    exact Or.inl ⟨m, rfl, h⟩
  · rw [hm]
    exact Or.inr ⟨m, rfl, h⟩

theorem count_of_fits {what : Metrics.Happening} {w : World κ ν ω} (h : w.cache.metrics.Fits what) :
    ∃ m, (Effect.count what : Effect κ ν ω ε Unit) w = .ok () { w with cache := { w.cache with metrics := m } } ∧
      ∀ c, (m.get c).toNat = (w.cache.metrics.get c).toNat + what.counters.count c := by
  rcases count_cases (ε := ε) what w with hok | ⟨m, -, c, hc⟩
  · exact hok
  · have hlt := (Metrics.fits_iff ..).1 h c
    omega

theorem count_of_not_fits {what : Metrics.Happening} {w : World κ ν ω} (h : ¬ w.cache.metrics.Fits what) :
    ∃ m, (Effect.count what : Effect κ ν ω ε Unit) w =
      .error (.faulted .addOverflow) { w with cache := { w.cache with metrics := m } } := by
  rcases count_cases (ε := ε) what w with ⟨m, -, hcount⟩ | ⟨m, hm, -⟩
  · refine absurd ((Metrics.fits_iff ..).2 fun c => ?_) h
    rw [← hcount]
    exact UInt64.toNat_lt _
  · exact ⟨m, hm⟩

/-! ### How far a world has got -/

/-- From `w` to `w'` so much has been counted and logged; the capacity and the hold are as they were. -/
structure World.Advances (w w' : World κ ν ω) (counted : List Metrics.Happening) (logged : List Event) : Prop where
  log : w'.log.toList = w.log.toList ++ logged
  counts : ∀ c, (w'.cache.metrics.get c).toNat = (w.cache.metrics.get c).toNat + tally counted c
  config : w'.cache.config = w.cache.config
  held : w'.cache.held = w.cache.held

/-- From `w` to `w'` a counter has overflowed on the way to what was to be counted and logged. -/
structure World.CutShort (w w' : World κ ν ω) (counted : List Metrics.Happening) (logged : List Event) : Prop where
  log : ∃ said, said <+: logged ∧ w'.log.toList = w.log.toList ++ said
  counts : ∃ c, UInt64.size ≤ (w.cache.metrics.get c).toNat + tally counted c
  config : w'.cache.config = w.cache.config
  held : w'.cache.held = w.cache.held

namespace World

variable {w w' w'' : World κ ν ω} {counted counted' : List Metrics.Happening} {logged logged' : List Event}

/-- The world while an operation holds the cache. -/
def hold (w : World κ ν ω) : World κ ν ω :=
  { w with cache := { w.cache with held := true } }

theorem Advances.refl (w : World κ ν ω) : w.Advances w [] [] :=
  ⟨by simp, fun _ => rfl, rfl, rfl⟩

theorem Advances.trans (h : w.Advances w' counted logged) (h' : w'.Advances w'' counted' logged') :
    w.Advances w'' (counted ++ counted') (logged ++ logged') := by
  refine ⟨?_, fun c => ?_, h'.config.trans h.config, h'.held.trans h.held⟩
  · rw [h'.log, h.log, List.append_assoc]
  · rw [h'.counts, h.counts, tally_append, Nat.add_assoc]

private theorem Advances.cutShort (h : w.Advances w' counted logged) (h' : w'.CutShort w'' counted' logged') :
    w.CutShort w'' (counted ++ counted') (logged ++ logged') := by
  obtain ⟨said, hsaid, hlog⟩ := h'.log
  obtain ⟨c, hc⟩ := h'.counts
  refine ⟨⟨logged ++ said, (List.prefix_append_right_inj _).2 hsaid, ?_⟩, ⟨c, ?_⟩, h'.config.trans h.config,
    h'.held.trans h.held⟩
  · rw [hlog, h.log, List.append_assoc]
  · rw [tally_append, ← Nat.add_assoc, ← h.counts]
    exact hc

private theorem CutShort.append (h : w.CutShort w' counted logged) (counted' : List Metrics.Happening)
    (logged' : List Event) : w.CutShort w' (counted ++ counted') (logged ++ logged') := by
  obtain ⟨said, hsaid, hlog⟩ := h.log
  obtain ⟨c, hc⟩ := h.counts
  refine ⟨⟨said, hsaid.trans (List.prefix_append ..), hlog⟩, ⟨c, ?_⟩, h.config, h.held⟩
  rw [tally_append]
  omega

end World

/-! ### Results that meet a turn -/

variable [EquivBEq κ] [LawfulHashable κ]

/-- A result meets a turn from `w`: it leaves a cache that holds the entries of the turn, having counted and logged
what the turn asks for, and ends as the turn does, with an answer related to its answer by `r`; or a counter has
overflowed, and the cache still holds some entries. -/
inductive Meets (r : World κ ν ω → α → β → Prop) (w : World κ ν ω) (t : Turn κ ν ω ε β) :
    EStateM.Result (Abort ε) (World κ ν ω) α → Prop
  | ok {a b w' es} : w'.cache.Holds es → es.map (·.2) = t.entries → w'.caller = t.caller →
    w.Advances w' t.counted t.logged → t.outcome = .ok b → r w' a b → Meets r w t (.ok a w')
  | error {e w' es} : w'.cache.Holds es → es.map (·.2) = t.entries → w'.caller = t.caller →
    w.Advances w' t.counted t.logged → t.outcome = .error e → Meets r w t (.error e w')
  | overflow {w' es} : w'.cache.Holds es → w.CutShort w' t.counted t.logged →
    Meets r w t (.error (.faulted .addOverflow) w')

/-- An answer that is the answer of the turn. -/
abbrev Same (_ : World κ ν ω) (a b : α) : Prop :=
  a = b

namespace Meets

variable {w w' : World κ ν ω} {es : List (Nat × κ × ν)} {r : World κ ν ω → α → β → Prop} {t : Turn κ ν ω ε β}

variable {o : Except (Abort ε) β} {entries : List (κ × ν)} {caller : ω} {counted : List Metrics.Happening}
  {logged : List Event}

/-- What has come to its end meets the turn that ends there. -/
theorem done {a : α} {b : β} (h : w.cache.Holds es) (he : es.map (·.2) = entries) (hc : w.caller = caller)
    (hr : r w a b) : Meets r w ⟨.ok b, entries, caller, [], []⟩ ((pure a : Effect κ ν ω ε α) w) :=
  .ok h he hc (.refl w) rfl hr

/-- What has stopped early meets the turn that stops there. -/
theorem stop {e : Abort ε} (h : w.cache.Holds es) (he : es.map (·.2) = entries) (hc : w.caller = caller) :
    Meets r w ⟨.error e, entries, caller, [], []⟩ (.error e w) :=
  .error h he hc (.refl w) rfl

/-- What was counted and logged before comes before what a turn counts and logs. -/
private theorem prepend {counted : List Metrics.Happening} {logged : List Event}
    {x : EStateM.Result (Abort ε) (World κ ν ω) α} (h : Meets r w' t x) (ha : w.Advances w' counted logged) :
    Meets r w { t with counted := counted ++ t.counted, logged := logged ++ t.logged } x := by
  cases h with
  | ok hh he hc hw ho hr => exact .ok hh he hc (ha.trans hw) ho hr
  | error hh he hc hw ho => exact .error hh he hc (ha.trans hw) ho
  | overflow hh hw => exact .overflow hh (ha.cutShort hw)

/-- Where an effect starts matters for the log, the counters, the capacity and the hold only. -/
private theorem rebase {x : EStateM.Result (Abort ε) (World κ ν ω) α} (h : Meets r w' t x)
    (hc : w.cache.Rearranged w'.cache) (hl : w'.log = w.log) : Meets r w t x := by
  have ha : w.Advances w' [] [] := ⟨by simp [hl], fun c => by rw [hc.metrics]; rfl, hc.config, hc.held⟩
  exact h.prepend ha

theorem ask {f : Cache κ ν → γ} {g : γ → Effect κ ν ω ε α} (hg : Meets r w t (g (f w.cache) w)) :
    Meets r w t ((Effect.ask f >>= g) w) :=
  hg

theorem change {f : Cache κ ν → Cache κ ν} {g : Unit → Effect κ ν ω ε α} (hc : w.cache.Rearranged (f w.cache))
    (hg : Meets r { w with cache := f w.cache } t (g () { w with cache := f w.cache })) :
    Meets r w t ((Effect.change f >>= g) w) :=
  hg.rebase hc rfl

theorem changeGet {f : Cache κ ν → γ × Cache κ ν} {g : γ → Effect κ ν ω ε α} {a : γ} (ha : (f w.cache).1 = a)
    (hc : w.cache.Rearranged (f w.cache).2)
    (hg : Meets r { w with cache := (f w.cache).2 } t (g a { w with cache := (f w.cache).2 })) :
    Meets r w t ((Effect.changeGet f >>= g) w) := by
  subst ha
  exact hg.rebase hc rfl

theorem count {what : Metrics.Happening} {f : Unit → Effect κ ν ω ε α} (h : w.cache.Holds es)
    (hf : ∀ m, { w.cache with metrics := m }.Holds es →
      Meets r { w with cache := { w.cache with metrics := m } } ⟨o, entries, caller, counted, logged⟩
        (f () { w with cache := { w.cache with metrics := m } })) :
    Meets r w ⟨o, entries, caller, what :: counted, logged⟩ ((Effect.count what >>= f) w) := by
  show Meets r w _ (EStateM.bind (Effect.count what) f w)
  unfold EStateM.bind
  rcases count_cases (ε := ε) what w with ⟨m, hm, hcount⟩ | ⟨m, hm, c, hc⟩
  · rw [hm]
    have ha : w.Advances { w with cache := { w.cache with metrics := m } } [what] [] := by
      refine ⟨by simp, fun c => ?_, rfl, rfl⟩
      rw [tally_cons]
      exact hcount c
    exact (hf m (h.congr rfl rfl rfl)).prepend ha
  · -- nothing has been logged yet of what is to come
    rw [hm]
    refine .overflow (h.congr rfl rfl rfl) ⟨⟨[], List.nil_prefix, by simp⟩, ⟨c, ?_⟩, rfl, rfl⟩
    show _ ≤ _ + tally (what :: counted) c
    rw [tally_cons]
    omega

theorem say {event : Cache κ ν → Event} {e : Event} {f : Unit → Effect κ ν ω ε α} (he : event w.cache = e)
    (hf : Meets r { w with log := w.log.push e } ⟨o, entries, caller, counted, logged⟩
      (f () { w with log := w.log.push e })) :
    Meets r w ⟨o, entries, caller, counted, e :: logged⟩ ((Effect.say event >>= f) w) := by
  subst he
  have ha : w.Advances { w with log := w.log.push (event w.cache) } [] [event w.cache] :=
    ⟨by simp, fun _ => rfl, rfl, rfl⟩
  exact hf.prepend ha

/-- In a held cache a callback sees what a callback of the sequence sees. -/
theorem call {run : Callback ω ε γ} {g : γ → Effect κ ν ω ε α} (hd : w.cache.held = true)
    (hok : ∀ a caller, run Sequence.locked w.caller = .ok a caller →
      Meets r { w with caller } t (g a { w with caller }))
    (herror : ∀ e caller, run Sequence.locked w.caller = .error e caller →
      Meets r { w with caller } t (.error e.toAbort { w with caller })) :
    Meets r w t ((Effect.call run >>= g) w) := by
  show Meets r w _ (EStateM.bind (Effect.call run) g w)
  unfold EStateM.bind Effect.call
  rw [Cache.outline_of_held hd]
  cases hrun : run Sequence.locked w.caller with
  | ok a caller => exact (hok a caller hrun).rebase ⟨rfl, rfl, rfl⟩ rfl
  | error e caller => exact (herror e caller hrun).rebase ⟨rfl, rfl, rfl⟩ rfl

/-- An edit of the value in a slot, which stays where it is, also where the update stops early. -/
theorem edit {s : Nat} {key : κ} {value : ν} {update : Update ν ω ε} {g : Unit → Effect κ ν ω ε α}
    (hd : w.cache.held = true) (hs : w.cache.order.get? s = some (key, value))
    (hok : ∀ value' caller, update Sequence.locked (value, w.caller) = .ok () (value', caller) →
      Meets r { w with cache := w.cache.setValue s value', caller } t
        (g () { w with cache := w.cache.setValue s value', caller }))
    (herror : ∀ e value' caller, update Sequence.locked (value, w.caller) = .error e (value', caller) →
      Meets r { w with cache := w.cache.setValue s value', caller } t
        (.error e.toAbort { w with cache := w.cache.setValue s value', caller })) :
    Meets r w t ((Effect.edit s update >>= g) w) := by
  show Meets r w _ (EStateM.bind (Effect.edit s update) g w)
  unfold EStateM.bind Effect.edit
  rw [Cache.outline_of_held hd, hs]
  dsimp only
  cases hrun : update Sequence.locked (value, w.caller) with
  | ok _ world =>
    obtain ⟨value', caller⟩ := world
    exact (hok value' caller hrun).rebase (Cache.rearranged_setValue ..) rfl
  | error e world =>
    obtain ⟨value', caller⟩ := world
    exact (herror e value' caller hrun).rebase (Cache.rearranged_setValue ..) rfl

/-- Going on after an effect meets going on after its turn. -/
theorem bind {x : Effect κ ν ω ε α} {f : α → Effect κ ν ω ε γ} {g : β → List (κ × ν) → ω → Turn κ ν ω ε δ}
    {r' : World κ ν ω → γ → δ → Prop} (hx : Meets r w t (x w))
    (hf : ∀ {a b w' es}, t.outcome = .ok b → r w' a b → w'.cache.Holds es → es.map (·.2) = t.entries →
      w.Advances w' t.counted t.logged → Meets r' w' (g b (es.map (·.2)) w'.caller) (f a w')) :
    Meets r' w (t.andThen g) ((x >>= f) w) := by
  show Meets r' w _ (EStateM.bind x f w)
  unfold EStateM.bind
  generalize x w = y at hx
  cases hx with
  | @ok a b w' es hh he hc hw ho hr =>
    have hy := hf ho hr hh he hw
    rw [he, hc] at hy
    unfold Turn.andThen
    rw [ho]
    exact hy.prepend hw
  | error hh he hc hw ho =>
    unfold Turn.andThen
    rw [ho]
    exact .error hh he hc hw rfl
  | overflow hh hw =>
    unfold Turn.andThen
    split
    · exact .overflow hh hw
    · -- what the turn would have gone on to count asks for even more
      exact .overflow hh (hw.append _ _)

/-- Reading something off at the end only changes the answer. -/
theorem map {x : Effect κ ν ω ε α} {f : α → Effect κ ν ω ε γ} {g : β → δ} {r' : World κ ν ω → γ → δ → Prop}
    (hx : Meets r w t (x w)) (hf : ∀ {a b w'}, r w' a b → ∃ c, f a w' = .ok c w' ∧ r' w' c (g b)) :
    Meets r' w (t.map g) ((x >>= f) w) := by
  show Meets r' w _ (EStateM.bind x f w)
  unfold EStateM.bind
  generalize x w = y at hx
  cases hx with
  | ok hh he hc hw ho hr =>
    obtain ⟨c, hfc, hr'⟩ := hf hr
    show Meets r' w _ (f _ _)
    rw [hfc]
    exact .ok hh he hc hw (by simp [Turn.map, ho, Except.map]) hr'
  | error hh he hc hw ho => exact .error hh he hc hw (by simp [Turn.map, ho, Except.map])
  | overflow hh hw => exact .overflow hh hw

theorem fmap {x : Effect κ ν ω ε α} {t : Turn κ ν ω ε α} {f : α → γ} (hx : Meets Same w t (x w)) :
    Meets Same w (t.map f) ((f <$> x) w) := by
  rw [map_eq_pure_bind]
  exact hx.map fun hr => ⟨_, rfl, congrArg f hr⟩

/-- Holding the cache while an effect runs does not change what it comes to. -/
theorem exclusively {x : Effect κ ν ω ε α} {t : Turn κ ν ω ε α} (hd : w.cache.held = false)
    (hx : Meets Same w.hold t (x w.hold)) : Meets Same w t (Effect.exclusively x w) := by
  unfold World.hold at hx
  unfold Effect.exclusively
  generalize x { w with cache := { w.cache with held := true } } = y at hx
  cases hx with
  | ok hh he hc hw ho hr => exact .ok (hh.congr rfl rfl rfl) he hc ⟨hw.log, hw.counts, hw.config, hd.symm⟩ ho hr
  | error hh he hc hw ho => exact .error (hh.congr rfl rfl rfl) he hc ⟨hw.log, hw.counts, hw.config, hd.symm⟩ ho
  | overflow hh hw => exact .overflow (hh.congr rfl rfl rfl) ⟨hw.log, hw.counts, hw.config, hd.symm⟩

theorem widen {x : Effect κ ν ω Empty α} {t : Turn κ ν ω Empty β} (hx : Meets r w t (x w)) :
    Meets r w (t.widen : Turn κ ν ω ε β) (Effect.widen x w) := by
  unfold Effect.widen
  generalize x w = y at hx
  cases hx with
  | ok hh he hc hw ho hr => exact .ok hh he hc hw (by simp [Turn.widen, ho, Except.mapError]) hr
  | error hh he hc hw ho => exact .error hh he hc hw (by simp [Turn.widen, ho, Except.mapError])
  | overflow hh hw => exact .overflow hh hw

end Meets

end RecencyCache
