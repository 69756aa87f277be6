import Mathlib.Data.List.Forall2
import Mathlib.Data.List.Induction
import RecencyCache.Proofs.Sequence.Recency

/-!
# The keys that stay

A history lists the keys that accesses ask for, each of which has an entry afterwards.  The keys of the history, each
once and the latest first, come about step by step: an access takes its key out and puts it in front
(`latestFirst_concat`).  A list that starts empty holds the first of them, as many as it has room for
(`Resident.moves`); so whether a key is still there can be told from the history alone (`Resident.any_iff`).
-/

namespace RecencyCache

/-- A call that leaves an entry under its key, or that only asks whether there is one. -/
def Cache.Op.Accesses {κ ν ρ ω ε : Type} (op : Cache.Op κ ν ρ ω ε) : Prop :=
  op.stores.isSome ∨ ∃ k, op = .containsKey k

namespace Sequence

open Cache (Op)

variable {κ ν ρ ω ε : Type} [BEq κ]

/-! ### Histories of keys -/

/-- The keys of a history, each once, the latest first. -/
def latestFirst (ks : List κ) : List κ :=
  ks.reverse.eraseDups

/-- A key was asked for before, and since it was last, fewer than `limit` other keys have been. -/
def Recent (limit : Nat) (ks : List κ) (k : κ) : Prop :=
  ∃ before k' since, ks = before ++ k' :: since ∧ (k' == k) = true ∧ (∀ x ∈ since, (x == k) = false) ∧
    (latestFirst since).length < limit

/-- Taking one element out of a list only matters to the places from it on. -/
private theorem take_eraseP {α : Type} (p : α → Bool) (n : Nat) (l : List α) :
    (l.eraseP p).take n = if (l.take (n + 1)).any p then (l.take (n + 1)).eraseP p else l.take n := by
  induction l generalizing n with
  | nil => simp
  | cons a l ih =>
    cases ha : p a with
    | true => simp [ha]
    | false =>
      cases n with
      | zero => simp [ha]
      | succ n =>
        rw [List.eraseP_cons_of_neg (by simp [ha]), List.take_succ_cons, ih]
        rw [List.take_succ_cons, List.any_cons, ha, Bool.false_or, List.eraseP_cons_of_neg (by simp [ha])]
        split <;> rfl

private theorem eraseDups_filter (p : κ → Bool) (hp : ∀ a b, (a == b) = true → p a = p b) (ks : List κ) :
    (ks.filter p).eraseDups = ks.eraseDups.filter p := by
  match ks with
  | [] => rfl
  | k :: ks =>
    have ih := eraseDups_filter p hp (ks.filter fun b => !b == k)
    rw [List.eraseDups_cons, List.filter_cons, List.filter_cons, ← ih, List.filter_filter]
    cases hk : p k with
    | true => simp [List.eraseDups_cons, List.filter_filter, Bool.and_comm]
    | false =>
      -- the keys equal to `k` go with it
      have hfilter : ks.filter p = ks.filter fun b => p b && !b == k := by
        refine List.filter_congr fun b _ => ?_
        cases hb : b == k with
        | true => simp [hp b k hb, hk]
        | false => simp
      rw [if_neg (by simp), if_neg (by simp), hfilter]
termination_by ks.length
decreasing_by exact Nat.lt_succ_of_le (List.length_filter_le ..)

section

variable [EquivBEq κ]

private theorem eraseDups_distinct (ks : List κ) : Distinct ks.eraseDups := by
  match ks with
  | [] => exact Distinct.nil
  | k :: ks =>
    rw [List.eraseDups_cons, Distinct.cons_iff]
    refine ⟨fun k' hk' => ?_, eraseDups_distinct _⟩
    rw [eraseDups_filter _ fun a b hab => by rw [BEq.congr_left hab]] at hk'
    rw [BEq.comm]
    simpa using (List.mem_filter.1 hk').2
termination_by ks.length
decreasing_by exact Nat.lt_succ_of_le (List.length_filter_le ..)

private theorem latestFirst_distinct (ks : List κ) : Distinct (latestFirst ks) :=
  eraseDups_distinct _

/-- An access takes its key out and puts it in front. -/
theorem latestFirst_concat (ks : List κ) (k : κ) :
    latestFirst (ks ++ [k]) = k :: (latestFirst ks).eraseP (· == k) := by
  rw [(latestFirst_distinct ks).eraseP_eq_filter, latestFirst, List.reverse_append]
  show (k :: ks.reverse).eraseDups = _
  rw [List.eraseDups_cons, eraseDups_filter _ fun a b hab => by rw [BEq.congr_left hab]]
  rfl

/-- The keys asked for since a key was last stand in front of it. -/
private theorem latestFirst_append_cons (before : List κ) {k' k : κ} (hk : (k' == k) = true) {since : List κ}
    (hsince : ∀ x ∈ since, (x == k) = false) :
    ∃ rest, latestFirst (before ++ k' :: since) = latestFirst since ++ k' :: rest := by
  induction since using List.reverseRecOn with
  | nil => exact ⟨_, latestFirst_concat before k'⟩
  | append_singleton since x ih =>
    obtain ⟨rest, hrest⟩ := ih fun y hy => hsince y (List.mem_append_left _ hy)
    have hne : (k' == x) = false := by
      rw [BEq.congr_left hk, BEq.comm]
      exact hsince x (by simp)
    rw [← List.cons_append, ← List.append_assoc, latestFirst_concat, latestFirst_concat, hrest]
    cases hx : (latestFirst since).any (· == x) with
    | true =>
      refine ⟨rest, ?_⟩
      obtain ⟨y, hy, hyx⟩ := List.any_eq_true.1 hx
      rw [List.eraseP_append_left (by simpa using hyx) _ hy]
      rfl
    | false =>
      refine ⟨rest.eraseP (· == x), ?_⟩
      have hnone : ∀ y ∈ latestFirst since, ¬(y == x) = true := by simpa using hx
      rw [List.eraseP_append_right _ hnone, List.eraseP_cons_of_neg (by simp [hne]), List.eraseP_of_forall_not hnone]
      rfl

private theorem mem_latestFirst {ks : List κ} {k : κ} (h : k ∈ latestFirst ks) : k ∈ ks := by
  induction ks using List.reverseRecOn with
  | nil => exact absurd h List.not_mem_nil
  | append_singleton ks x ih =>
    rw [latestFirst_concat] at h
    rcases List.mem_cons.1 h with rfl | h
    · simp
    · exact List.mem_append_left _ (ih (List.mem_of_mem_eraseP h))

omit [EquivBEq κ] in
/-- A key that was asked for was last asked for at some moment. -/
private theorem exists_last {ks : List κ} {key k : κ} (hkey : key ∈ ks) (hk : (key == k) = true) :
    ∃ before k' since, ks = before ++ k' :: since ∧ (k' == k) = true ∧ ∀ x ∈ since, (x == k) = false := by
  have hfind : (ks.reverse.find? (· == k)).isSome := List.find?_isSome.2 ⟨key, List.mem_reverse.2 hkey, hk⟩
  obtain ⟨k', hk'⟩ := Option.isSome_iff_exists.1 hfind
  obtain ⟨hbeq, since, before, hks, hsince⟩ := List.find?_eq_some_iff_append.1 hk'
  have hsplit : ks = before.reverse ++ k' :: since.reverse := by
    rw [← List.reverse_reverse ks, hks]
    simp
  exact ⟨before.reverse, k', since.reverse, hsplit, hbeq, by simpa using hsince⟩

/-- A key is among the first when it was asked for recently, and only then. -/
theorem any_take_latestFirst {limit : Nat} {ks : List κ} {k : κ} :
    ((latestFirst ks).take limit).any (· == k) = true ↔ Recent limit ks k := by
  constructor
  · intro hany
    obtain ⟨key, hkey, hk⟩ := List.any_eq_true.1 hany
    obtain ⟨before, k', since, rfl, hbeq, hsince⟩ := exists_last (mem_latestFirst (List.mem_of_mem_take hkey)) hk
    refine ⟨before, k', since, rfl, hbeq, hsince, Nat.lt_of_not_le fun hle => ?_⟩
    -- otherwise all the first have been asked for since
    obtain ⟨rest, hrest⟩ := latestFirst_append_cons before hbeq hsince
    rw [hrest, List.take_append_of_le_length hle] at hkey
    have hne := hsince key (mem_latestFirst (List.mem_of_mem_take hkey))
    simp [hk] at hne
  · rintro ⟨before, k', since, rfl, hk, hsince, hlt⟩
    obtain ⟨rest, hrest⟩ := latestFirst_append_cons before hk hsince
    refine List.any_eq_true.2 ⟨k', ?_, hk⟩
    rw [hrest, List.take_append]
    obtain ⟨n, hn⟩ := Nat.exists_eq_succ_of_ne_zero (Nat.sub_ne_zero_of_lt hlt)
    simp [hn]

end

/-! ### One access -/

namespace Moves

variable {limit n : Nat} {k : κ} {es es' : List (κ × ν)}

/-- An access to a key that is found brings it to the front and drops nothing. -/
theorem of_found [EquivBEq κ] (hm : Moves limit (some k) (some k) es es' n) (hd : Distinct (es.map (·.1)))
    (hf : (es.find? (·.1 == k)).isSome) :
    n = 0 ∧ (es'.map (·.1)).Perm (es.map (·.1)) ∧
      ∃ key, (key == k) = true ∧ es'.map (·.1) = key :: (es.map (·.1)).eraseP (· == k) := by
  cases hm with
  | keeps ht => cases ht
  | inserts ht _ hnone | displaces ht _ hnone =>
    cases ht
    rw [hnone] at hf
    cases hf
  | @hits k' key value old L R ht hk hes =>
    cases ht
    subst hes
    refine ⟨rfl, ?_, key, hk, ?_⟩
    · simpa using List.perm_middle.symm
    · rw [List.map_cons, ← hd.eraseP_eq hk, List.eraseP_map]
      rfl

/-- An access to a key that is not found puts it in front; in a full list the last pair makes room. -/
theorem of_not_found (hm : Moves limit (some k) (some k) es es' n) (hl : 0 < limit) (hle : es.length ≤ limit)
    (hf : es.find? (·.1 == k) = none) :
    ∃ value, es' = (k, value) :: es.take (limit - 1) ∧ n = es[limit - 1]?.toList.length := by
  cases hm with
  | keeps ht => cases ht
  | @hits k' key value old L R ht hk hes =>
    cases ht
    have := List.find?_eq_none.1 hf (key, old) (by simp [hes])
    exact absurd hk this
  | @inserts k' value ht _ _ hlt =>
    cases ht
    refine ⟨value, ?_, ?_⟩
    · rw [List.take_of_length_le (by omega)]
    · rw [List.getElem?_eq_none (by omega)]
      rfl
  | @displaces k' value rest last ht _ _ hge hes =>
    cases ht
    subst hes
    have hrest : limit - 1 = rest.length := by
      rw [List.length_append, List.length_singleton] at hle hge
      omega
    refine ⟨value, ?_, ?_⟩
    · rw [hrest, List.take_left]
    · rw [hrest, List.getElem?_concat_length]
      rfl

end Moves

section

variable (limit : Nat) (k : κ) (es : List (κ × ν)) (caller : ω)

omit [BEq κ] in
/-- An access that comes to an answer has touched its key. -/
theorem touched_ok {op : Op κ ν ρ ω ε} {k : κ} (hs : op.stores = some k) (reply : Cache.Reply κ ν ρ) :
    op.touched (.ok reply) = some k := by
  cases op <;> cases hs <;> rfl

/-- A `put` of a key that is not found answers with the pair that has made room. -/
theorem put_outcome {es : List (κ × ν)} (hl : 0 < limit) (hle : es.length ≤ limit) (value : ν) :
    (put limit k value es caller : Turn κ ν ω ε _).outcome =
      .ok (if (es.find? (·.1 == k)).isSome then none else es[limit - 1]?) := by
  unfold put insert
  cases hf : es.find? (·.1 == k) with
  | some e => rfl
  | none =>
    dsimp only
    split
    · have hlen : es.length = limit := by omega
      rw [← hlen, List.getLast?_eq_getElem?]
      rfl
    · rw [List.getElem?_eq_none (by omega)]
      rfl

omit [BEq κ] in
/-- What is asked of a counter by an insertion, after a miss or without one. -/
private theorem insert_tally_le (value : ν) (c : Counter) :
    tally (.miss :: (insert limit k value es caller : Turn κ ν ω ε _).counted) c ≤ 1 := by
  unfold insert
  split
  · dsimp only
    cases c <;> decide
  · dsimp only
    cases c <;> decide

/-- An access asks no counter for more than one bump. -/
private theorem step_tally_le {op : Op κ ν ρ ω ε} (h : op.Accesses) (c : Counter) :
    tally (step limit op es caller).counted c ≤ op.stores.toList.length := by
  have hput : ∀ (k : κ) (value : ν), tally (put limit k value es caller : Turn κ ν ω ε _).counted c ≤ 1 := by
    intro k value
    unfold put
    split
    · dsimp only
      cases c <;> decide
    · have hinsert := insert_tally_le (ε := ε) limit k es caller value c
      rw [tally_cons] at hinsert
      omega
  have hmake : ∀ {ε' : Type} (k : κ) (make : Callback ω ε' ν),
      tally (getOrInsertWith limit k make es caller).counted c ≤ 1 := by
    intro ε' k make
    unfold getOrInsertWith
    split
    · dsimp only
      cases c <;> decide
    · split
      · exact Nat.zero_le _
      · exact insert_tally_le limit k _ _ _ c
  rcases h with h | ⟨k, rfl⟩
  · cases op with
    | put k value => exact hput k value
    | getOrInsertWith k make | tryGetOrInsertWith k make => exact hmake k make
    | _ => cases h
  · exact Nat.zero_le _

/-- Accesses ask no counter for more bumps than there are keys in their history. -/
theorem run_tally_le {ops : List (Op κ ν ρ ω ε)} (h : ∀ op ∈ ops, op.Accesses) (c : Counter) :
    tally ((run limit es caller ops).flatMap (·.counted)) c ≤ (ops.filterMap Op.stores).length := by
  induction ops generalizing es caller with
  | nil => exact Nat.zero_le _
  | cons op ops ih =>
    have hop := step_tally_le limit es caller (h op (List.mem_cons_self ..)) c
    have hops := ih (step limit op es caller).entries (step limit op es caller).caller
      fun op' hop' => h op' (List.mem_cons_of_mem _ hop')
    rw [run, List.flatMap_cons, tally_append]
    cases hs : op.stores <;> simp [hs] at hop ⊢ <;> omega

end

/-! ### What stays -/

/-- Lists of equal keys stay so when an equal key is taken out of both. -/
private theorem forall₂_eraseP [EquivBEq κ] {keys keys' : List κ}
    (h : List.Forall₂ (fun key k => (key == k) = true) keys keys') (k : κ) :
    List.Forall₂ (fun key k => (key == k) = true) (keys.eraseP (· == k)) (keys'.eraseP (· == k)) := by
  induction h with
  | nil => exact .nil
  | @cons key key' keys keys' hkey hkeys ih =>
    rw [List.eraseP_cons, List.eraseP_cons, BEq.congr_left hkey]
    cases key' == k with
    | true => exact hkeys
    | false => exact .cons hkey ih

/-- Keys are the first of a history, as many as there is room for. -/
def Resident (limit : Nat) (ks keys : List κ) : Prop :=
  List.Forall₂ (fun key k => (key == k) = true) keys ((latestFirst ks).take limit)

namespace Resident

variable {limit n : Nat} {ks keys : List κ} {k : κ}

theorem nil : Resident limit ([] : List κ) [] := by
  unfold Resident latestFirst
  simp

theorem length (h : Resident limit ks keys) : keys.length = min limit (latestFirst ks).length := by
  have hlen := h.length_eq
  rwa [List.length_take] at hlen

/-- The key at a place is that of the history at the same place. -/
theorem getElem? (h : Resident limit ks keys) {i : Nat} {key : κ} (hkey : keys[i]? = some key) :
    ∃ k, (latestFirst ks)[i]? = some k ∧ (key == k) = true := by
  obtain ⟨hi, rfl⟩ := List.getElem?_eq_some_iff.1 hkey
  have hi' : i < ((latestFirst ks).take limit).length := h.length_eq ▸ hi
  have hbeq := h.get hi hi'
  rw [List.get_eq_getElem, List.get_eq_getElem, List.getElem_take] at hbeq
  rw [List.length_take] at hi'
  exact ⟨_, List.getElem?_eq_getElem (by omega), hbeq⟩

variable [EquivBEq κ]

theorem any_iff (h : Resident limit ks keys) : keys.any (· == k) = true ↔ Recent limit ks k := by
  rw [← any_take_latestFirst]
  unfold Resident at h
  generalize (latestFirst ks).take limit = keys' at h
  induction h with
  | nil => rfl
  | cons hkey _ ih => simp only [List.any_cons, Bool.or_eq_true, BEq.congr_left hkey, ih]

/-- An access brings its key to the front of those that stay, or puts it there in place of the last. -/
private theorem access (h : Resident limit ks keys) (hl : 0 < limit) {key : κ} (hk : (key == k) = true) :
    Resident limit (ks ++ [k])
      (key :: if keys.any (· == k) then keys.eraseP (· == k) else keys.take (limit - 1)) := by
  obtain ⟨room, rfl⟩ := Nat.exists_eq_succ_of_ne_zero (Nat.ne_of_gt hl)
  unfold Resident
  rw [latestFirst_concat, List.take_succ_cons, take_eraseP]
  refine .cons hk ?_
  have hany : keys.any (· == k) = ((latestFirst ks).take (room + 1)).any (· == k) := by
    rw [Bool.eq_iff_iff, h.any_iff, any_take_latestFirst]
  rw [hany]
  split
  · exact forall₂_eraseP h k
  · have htake := List.forall₂_take room h
    rwa [List.take_take, Nat.min_eq_left (Nat.le_succ room)] at htake

variable {es es' : List (κ × ν)}

/-- Every access keeps the keys of a list the first of the history. -/
theorem moves (h : Resident limit ks (es.map (·.1))) (hl : 0 < limit) (hd : Distinct (es.map (·.1)))
    (hm : Moves limit (some k) (some k) es es' n) : Resident limit (ks ++ [k]) (es'.map (·.1)) := by
  have hfind : (es.map (·.1)).any (· == k) = (es.find? (·.1 == k)).isSome := by
    rw [Bool.eq_iff_iff]
    simp
  cases hf : es.find? (·.1 == k) with
  | some e =>
    obtain ⟨-, -, key, hk, hes'⟩ := hm.of_found hd (hf ▸ rfl)
    have haccess := h.access hl hk
    rw [hfind, hf] at haccess
    rw [hes']
    exact haccess
  | none =>
    have hle : es.length ≤ limit := by
      have := h.length
      rw [List.length_map] at this
      omega
    obtain ⟨value, rfl, -⟩ := hm.of_not_found hl hle hf
    have haccess := h.access hl (BEq.refl k)
    rw [hfind, hf, ← List.map_take] at haccess
    exact haccess

end Resident

end Sequence

end RecencyCache
