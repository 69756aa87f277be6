import RecencyCache.Proofs.Cache.Arena
import RecencyCache.Proofs.Cache.Notes
import RecencyCache.Proofs.Cache.Room

/-!
# The protocol of callbacks

The seven ways to look a key up are one: those that cannot fail go as those that can, those that only tell whether
there is an entry go as those that answer with its value, and a view comes after the value has been got
(`LookupForms`).  Their callbacks are called in the order of the protocol: the predicate first, on the value of the
entry; the update next, on the same value and in its place, if the predicate lets the entry be; a view last, once the
hit has been counted.  While any of them runs the cache shows that it is locked, and after every call it shows its
contents again (`Op.run_protocol`).
-/

namespace RecencyCache

open Sequence (keepAll locked)

variable {κ ν ρ ω ε α β : Type}

/-- The update leaves `value'` in place of the value that it was offered, whether or not it stops early. -/
def Update.Leaves (update : Update ν ω ε) (value : ν) (caller : ω) (value' : ν) : Prop :=
  ∃ caller', update locked (value, caller) = .ok () (value', caller') ∨
    ∃ stop, update locked (value, caller) = .error stop (value', caller')

variable [BEq κ] [Hashable κ] [EquivBEq κ] [LawfulHashable κ]

namespace Cache

open Effect

variable {w : World κ ν ω} {c : Cache κ ν} {k key : κ} {s : Nat} {value value' : ν} {caller caller' : ω}

/-! ### An update edits the value in place -/

/-- Once the update of a lookup is through, the entry is touched and the hit is counted. -/
private theorem lookup_of_kept (hd : w.cache.held = true) (hf : w.cache.find? k = some (s, key, value))
    {update : Update ν ω ε} {evictIf : ν → Callback ω ε Bool} (hkeep : evictIf value locked w.caller = .ok false caller)
    (hupdate : update locked (value, caller) = .ok () (value', caller')) :
    lookup k update evictIf w = (do change (·.touch s); count .hit; return some s : Effect κ ν ω ε _)
      { w with cache := w.cache.setValue s value', caller := caller' } := by
  have hs : w.cache.order.get? s = some (key, value) := get?_of_find? hf
  have hedit : edit s update { w with caller } =
      .ok () { w with cache := w.cache.setValue s value', caller := caller' } := by
    have hlocked : ({ w with caller } : World κ ν ω).cache.outline = locked := outline_of_held hd
    unfold edit
    rw [hlocked, hs]
    dsimp only
    rw [hupdate]
  unfold lookup
  rw [bind_ask, hf]
  dsimp only
  rw [bind_of_ok (call_of_ok hd hkeep), if_neg Bool.false_ne_true, bind_of_ok hedit]

private theorem get?_tryGetOrEvict (h : w.cache.Coherent) (hf : w.cache.find? k = some (s, key, value))
    {update : Update ν ω ε} {evictIf : ν → Callback ω ε Bool} (hkeep : evictIf value locked w.caller = .ok false caller)
    (hleaves : update.Leaves value caller value') :
    ((tryGetOrEvict k update evictIf).leaves w).cache.order.get? s = some (key, value') := by
  have hs : w.cache.order.get? s = some (key, value) := get?_of_find? hf
  unfold tryGetOrEvict
  rw [order_exclusively]
  obtain ⟨caller', hupdate | ⟨stop, hstop⟩⟩ := hleaves
  · have hset : (w.hold.cache.setValue s value').Coherent ∧
        (w.hold.cache.setValue s value').find? k = some (s, key, value') := by
      obtain ⟨es, hes⟩ := h.exists_holds
      have hfind := hf
      rw [hes.find?_eq] at hfind
      obtain ⟨hk, L, R, rfl⟩ := exists_split_of_find? hfind
      have hv : w.hold.cache.Holds (L ++ (s, key, value) :: R) := hes.congr rfl rfl rfl
      have hedited := hv.setValue value'
      exact ⟨hedited.coherent, hedited.coherent.find?_of_get? hedited.get?_eq hk⟩
    have htouched : ((w.hold.cache.setValue s value').touch s).order.get? s = some (key, value') :=
      get?_touch hset.1 hset.2
    have hlookup := lookup_of_kept (w := w.hold) rfl hf hkeep hupdate
    -- whether or not the hit can be counted, the value is there
    rcases count_cases (ε := ε) .hit
        { w.hold with cache := (w.hold.cache.setValue s value').touch s, caller := caller' } with
        ⟨m, hm, -⟩ | ⟨m, hm, -⟩
    · rw [bind_change, bind_of_ok hm] at hlookup
      rw [leaves_bind_of_ok hlookup]
      exact htouched
    · rw [bind_change, bind_of_error hm] at hlookup
      rw [leaves_bind_of_error hlookup]
      exact htouched
  · have hlookup := lookup_of_update_error (w := w.hold) rfl hf hkeep hstop
    rw [leaves_bind_of_error hlookup]
    show (w.cache.order.set s (key, value')).get? s = _
    rw [SlotList.get?_set, if_pos rfl, hs]
    rfl

/-- What the update of a lookup leaves is the value of the entry, in its slot and under its stored key. -/
private theorem find?_tryGetOrEvict (h : w.cache.Ready) (hf : w.cache.find? k = some (s, key, value))
    {update : Update ν ω ε} {evictIf : ν → Callback ω ε Bool} (hkeep : evictIf value locked w.caller = .ok false caller)
    (hleaves : update.Leaves value caller value') :
    ((tryGetOrEvict k update evictIf).leaves w).cache.find? k = some (s, key, value') := by
  have hready : ((tryGetOrEvict k update evictIf).leaves w).cache.Ready := by
    have happly := Op.apply_ready h (Op.tryGetOrEvict k update evictIf : Op κ ν Unit ω ε)
    have hperform : (Op.tryGetOrEvict k update evictIf : Op κ ν Unit ω ε).perform =
        Reply.found <$> Cache.tryGetOrEvict k update evictIf := rfl
    rw [Op.apply_snd, hperform, leaves_map] at happly
    exact happly
  exact hready.coherent.find?_of_get? (get?_tryGetOrEvict h.coherent hf hkeep hleaves) (h.coherent.beq_of_find? hf)

/-! ### The forms of a lookup -/

/-- Whether there is an entry is whether there is a value. -/
private theorem tryExistsOrEvict_eq (h : w.cache.Ready) (k : κ) (update : Update ν ω ε)
    (evictIf : ν → Callback ω ε Bool) :
    tryExistsOrEvict k update evictIf w = ((·.isSome) <$> tryGetOrEvict k update evictIf) w := by
  obtain ⟨es, hes⟩ := h.coherent.exists_holds
  have hv : w.hold.cache.Holds es := hes.congr rfl rfl rfl
  have hlookup := lookup_meets hv rfl k update evictIf
  rw [map_eq_pure_bind]
  unfold tryExistsOrEvict tryGetOrEvict
  have hafter (x : Effect κ ν ω ε (Option ν)) : (exclusively x >>= fun v => pure v.isSome : Effect κ ν ω ε Bool) =
      exclusively (do return (← x).isSome) := (exclusively_bind_pure x (·.isSome)).symm
  rw [hafter]
  refine exclusively_congr ?_
  rw [bind_assoc]
  cases hx : lookup k update evictIf w.hold with
  | error e w' => rw [bind_of_error hx, bind_of_error hx]
  | ok slot? w' =>
    rw [bind_of_ok hx, bind_of_ok hx]
    rw [hx] at hlookup
    cases hlookup with
    | ok hh he hc hw ho hkept =>
      cases hkept with
      | none => rfl
      | some hs =>
        show _ = EStateM.Result.ok ((w'.cache.order.get? _).map (·.2)).isSome w'
        rw [hs]
        rfl

/-- A view leaves the world that getting the value leaves, but for what it does to the caller's state. -/
private theorem leaves_getWith (h : w.cache.Ready) (k : κ) (view : ν → Callback ω Empty α) :
    ∃ caller', (getWith k view : Effect κ ν ω ε _).leaves w =
      { (Cache.get k : Effect κ ν ω ε _).leaves w with caller := caller' } := by
  have hview := getWith_eq_getThenView (ε := ε) h k view
  have hleaves : (getWith k view : Effect κ ν ω ε _).leaves w =
      (getThenView k fun value => (view value).widen : Effect κ ν ω ε _).leaves w := by
    unfold leaves
    rw [hview]
  rw [hleaves]
  unfold getThenView
  cases hget : (Cache.get k : Effect κ ν ω ε _) w with
  | error e w' =>
    rw [leaves_bind_of_error hget, leaves_of_error hget]
    exact ⟨w'.caller, rfl⟩
  | ok value? w' =>
    rw [leaves_bind_of_ok hget, leaves_of_ok hget]
    cases value? with
    | none => exact ⟨w'.caller, rfl⟩
    | some value =>
      have hfree : w'.cache.held = false := (ready_of_get h hget).free
      dsimp only
      rw [bind_pure_comp, leaves_map]
      unfold leaves exclusively
      obtain ⟨⟨config, order, index, metrics, held⟩, log, caller⟩ := w'
      cases hfree
      rcases call_cases (view value).widen (World.hold ⟨⟨config, order, index, metrics, false⟩, log, caller⟩) with
        ⟨a, caller', hcall⟩ | ⟨e, caller', hcall⟩
      · unfold World.hold at hcall
        rw [hcall]
        exact ⟨caller', rfl⟩
      · unfold World.hold at hcall
        rw [hcall]
        exact ⟨caller', rfl⟩

/-- The ways to look a key up agree in how they end and in the world that they leave. -/
structure LookupForms (ε : Type) (w : World κ ν ω) : Prop where
  present : ∀ k update evictIf, (tryExistsOrEvict k update evictIf : Effect κ ν ω ε _) w =
    ((·.isSome) <$> tryGetOrEvict k update evictIf) w
  getOrEvict : ∀ k update evictIf, (getOrEvict k update evictIf : Effect κ ν ω ε _) w =
    tryGetOrEvict k (Callback.widen update) (fun value => (evictIf value).widen) w
  existsOrEvict : ∀ k update evictIf, (existsOrEvict k update evictIf : Effect κ ν ω ε _) w =
    tryExistsOrEvict k (Callback.widen update) (fun value => (evictIf value).widen) w
  get : ∀ k, (Cache.get k : Effect κ ν ω ε _) w = tryGetOrEvict k .keep keepAll w
  getAndUpdate : ∀ k update, (getAndUpdate k update : Effect κ ν ω ε _) w =
    tryGetOrEvict k (Callback.widen update) keepAll w
  getWith : ∀ {α : Type} k (view : ν → Callback ω Empty α), (getWith k view : Effect κ ν ω ε _) w =
    getThenView k (fun value => (view value).widen) w
  /-- A view touches nothing of the cache, whatever it ends with. -/
  viewed : ∀ {α : Type} k (view : ν → Callback ω Empty α), ∃ caller',
    (Cache.getWith k view : Effect κ ν ω ε _).leaves w =
      { (Cache.get k : Effect κ ν ω ε _).leaves w with caller := caller' }
  /-- What an update leaves is the value from then on, also where it stops early. -/
  updated : ∀ {k s key value value' caller} {update : Update ν ω ε} {evictIf : ν → Callback ω ε Bool},
    w.cache.find? k = some (s, key, value) → evictIf value locked w.caller = .ok false caller →
    update.Leaves value caller value' →
    ((tryGetOrEvict k update evictIf).leaves w).cache.find? k = some (s, key, value')

private theorem lookupForms (h : w.cache.Ready) : LookupForms ε w where
  present k update evictIf := tryExistsOrEvict_eq h k update evictIf
  getOrEvict k update evictIf := congrFun (getOrEvict_eq k update evictIf) w
  existsOrEvict k update evictIf := congrFun (existsOrEvict_eq k update evictIf) w
  get k := congrFun (get_eq k) w
  getAndUpdate k update := congrFun (getOrEvict_eq k update keepAll) w
  getWith k view := getWith_eq_getThenView h k view
  viewed k view := leaves_getWith h k view
  updated hf hkeep hleaves := find?_tryGetOrEvict h hf hkeep hleaves

/-! ### A run -/

/-- After a call, however it has ended, the cache shows its contents. -/
private theorem Op.apply_outline (h : w.cache.Ready) (op : Op κ ν ρ ω ε) :
    (op.apply w).2.cache.outline = .record "BoundedLruCache" [("segment", .record "LruSegment"
      [("capacity", .number w.cache.config.limit), ("len", .number (op.apply w).2.cache.length)])] := by
  have hready := Op.apply_ready h op
  rw [hready.coherent.agrees.outline hready.free, capacity, Op.apply_config h op]

/-- The protocol of callbacks.  After every run from a new cache, however its calls ended, a call whose callbacks take
notes goes as it does without: it ends the same way and leaves the same cache, log and state of the caller.  The notes
of a call that is no sweep are those that it asks for: none where the key has no entry; else the predicate, on the
value of the entry, and then the update, on the same value, if the predicate has answered that the entry be kept; a
view, if the key has an entry and the hit can be counted; and what makes a value, if the key has none.  Whatever
callback it is, of any call, sees that the cache is locked, and after the call, however it has ended, the cache shows
its capacity and its length.  The ways to look a key up agree.  The hit can be counted unless there have been as many
calls as a counter can count. -/
theorem Op.run_protocol (config : Config) (caller : ω) (ops : List (Op κ ν ρ ω ε)) :
    let start : World κ ν ω := World.new config caller
    let w := (Op.run start ops).2
    (∀ op : Op κ ν ρ ω ε, ∃ asked, (op.predicate? = none → asked = op.asks w) ∧
      ∀ notes, op.noted.apply (w.noted notes) =
        ((op.apply w).1, (op.apply w).2.noted (notes ++ asked.map Asking.note))) ∧
      (∀ op : Op κ ν ρ ω ε, (op.apply w).2.cache.outline = .record "BoundedLruCache" [("segment",
        .record "LruSegment" [("capacity", .number config.limit), ("len", .number (op.apply w).2.cache.length)])]) ∧
      LookupForms ε w ∧
      (ops.length + 1 < UInt64.size → w.cache.metrics.Fits .hit) := by
  intro start w
  obtain ⟨hready, hconfig⟩ := Op.run_ready (ready_new (κ := κ) (ν := ν) config caller) ops
  refine ⟨fun op => Op.noted_apply hready op, fun op => ?_, lookupForms hready, fun hfew =>
    Op.run_fits config caller hfew .hit⟩
  have houtline := Op.apply_outline hready op
  rw [hconfig] at houtline
  exact houtline

/-- The predicate keeps the entry and the update raises: both have been called, and the value stays as the update has
left it; a view that raises leaves what getting the value leaves. -/
theorem Op.run_protocol_instance :
    let ops : List (Op Key Nat Unit Unit String) := [.put (.int 1) 10, .put (.int 2) 20]
    let start : World Key Nat Unit := World.new ⟨2, by decide⟩ ()
    let w := (Op.run start ops).2
    let raising : Update Nat Unit String := fun _ _ => .error (.raised "no") (11, ())
    let op : Op Key Nat Unit Unit String := .tryGetOrEvict (.int 1) raising fun _ => pure false
    (op.noted.apply (w.noted [])).2.caller.2.map (·.asking) = [.evictIf 10, .update 10] ∧
      (op.apply w).2.cache.outline.inline =
        "BoundedLruCache \x7b segment: LruSegment \x7b capacity: 2, len: 2 \x7d \x7d" ∧
      (∃ s, (op.apply w).2.cache.find? (.int 1) = some (s, .int 1, 11)) ∧ w.cache.metrics.Fits .hit := by
  intro ops start w raising op
  have hnew := ready_new (κ := Key) (ν := Nat) ⟨2, by decide⟩ ()
  have hover : Op.NoOverflow start ops := (Op.noOverflow_iff hnew _).2 fun c => by cases c <;> decide
  have hready : w.cache.Ready := (Op.run_ready hnew ops).1
  have hlist : w.cache.toList = [(.int 2, 20), (.int 1, 10)] := ((Op.run_eq hnew hover).2 1 _ rfl).1
  obtain ⟨s, hs⟩ : ∃ s, w.cache.find? (.int 1) = some (s, .int 1, 10) := find?_of_toList hready (by rw [hlist]; rfl)
  obtain ⟨hnotes, houtline, hforms, hfits⟩ := Op.run_protocol ⟨2, by decide⟩ () ops
  refine ⟨?_, ?_, ⟨s, ?_⟩, hfits (by decide)⟩
  · obtain ⟨asked, hasks, hnoted⟩ := hnotes op
    have hasked : op.asks w = [.evictIf 10, .update 10] := by
      have hlookup : op.asks w = lookupAsks (fun value => [.evictIf value]) (fun value => [.update value]) (.int 1)
        (fun _ => (pure false : Callback Unit String Bool)) w := rfl
      rw [hlookup]
      unfold lookupAsks
      rw [hs]
      rfl
    rw [hnoted, hasks rfl, hasked]
    rfl
  · have hlength : (op.apply w).2.cache.length = 2 := by
      have hstops : op.StopsUpdating w s (.int 1) 10 11 (.raised "no") () := .intro rfl hs rfl rfl
      rw [Op.apply_of_updating hready.free hstops]
      show w.cache.length = 2
      rw [hready.coherent.agrees.length, hlist]
      rfl
    have hshown := houtline op
    have hw : (Op.run (World.new ⟨2, by decide⟩ ()) ops).2 = w := rfl
    rw [hw, hlength] at hshown
    rw [hshown]
    decide
  · have hkeep : (fun _ => pure false : Nat → Callback Unit String Bool) 10 locked w.caller = .ok false () := rfl
    have hleaves : raising.Leaves 10 () 11 := ⟨(), .inr ⟨.raised "no", rfl⟩⟩
    have hupdated : ((Cache.tryGetOrEvict (.int 1) raising fun _ => pure false).leaves w).cache.find? (.int 1) =
        some (s, .int 1, 11) := hforms.updated hs hkeep hleaves
    have hperform : op.perform = Reply.found <$> Cache.tryGetOrEvict (.int 1) raising fun _ => pure false := rfl
    rw [Op.apply_snd, hperform, leaves_map]
    exact hupdated

end Cache

end RecencyCache
