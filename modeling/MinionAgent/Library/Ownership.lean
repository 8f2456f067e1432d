import Mathlib.Data.List.Induction
import MinionAgent.Library.FiniteMap

/-!
# MinionAgent.Library.Ownership

A map whose entries belong to the calls that wrote them: a call covers keys,
and its handle takes back the entries that are still its own.

* `Holds` — whose entry a key has, by the calls alone;
* `lookup_insertAll`, `lookup_eraseOwned` — what the loops of both do to a key;
* `lookup_run` — the map holds what the calls say;
* `lookup_withdraw` — a handle leaves the entries of other calls.
-/

namespace Ownership

variable {K V : Type}

/-! ## The calls -/

/-- A call that covers keys, or a call of the handle that the n-th of these
returned. -/
inductive Call (K V : Type)
  | cover (keys : List K) (value : V)
  | withdraw (call : Nat)

/-- The keys a call covers. -/
def Call.keys? : Call K V → Option (List K)
  | cover keys _ => some keys
  | withdraw _ => none

/-- The keys of the calls that cover, in order. -/
def covered (calls : List (Call K V)) : List (List K) := calls.filterMap Call.keys?

/-- The last call that covers a key, the n-th, set it to a value and is not
withdrawn. -/
def Holds (calls : List (Call K V)) (k : K) (v : V) (n : Nat) : Prop :=
  ∃ before keys after, calls = before ++ .cover keys v :: after ∧ n = (covered before).length ∧ k ∈ keys ∧
    (∀ keys' v', Call.cover keys' v' ∈ after → k ∉ keys') ∧ Call.withdraw n ∉ after

theorem covered_concat_cover (calls : List (Call K V)) (keys : List K) (v : V) :
    covered (calls ++ [.cover keys v]) = covered calls ++ [keys] := by
  simp [covered, Call.keys?]

theorem covered_concat_withdraw (calls : List (Call K V)) (n : Nat) :
    covered (calls ++ [.withdraw n]) = covered calls := by
  simp [covered, Call.keys?]

/-- The holder is a call that was made. -/
theorem Holds.covered {calls : List (Call K V)} {k : K} {v : V} {n : Nat} (h : Holds calls k v n) :
    ∃ keys, (covered calls)[n]? = some keys ∧ k ∈ keys := by
  obtain ⟨before, keys, after, rfl, rfl, hk, _⟩ := h
  exact ⟨keys, by simp [Ownership.covered, Call.keys?], hk⟩

theorem Holds.lt {calls : List (Call K V)} {k : K} {v : V} {n : Nat} (h : Holds calls k v n) :
    n < (Ownership.covered calls).length := by
  obtain ⟨keys, hkeys, _⟩ := h.covered
  exact (List.getElem?_eq_some_iff.mp hkeys).1

theorem holds_nil (k : K) (v : V) (n : Nat) : ¬ Holds ([] : List (Call K V)) k v n := by
  intro h
  exact Nat.not_lt_zero n h.lt

/-- What a call more does to the holder of a key that it does not concern. -/
theorem holds_concat {calls : List (Call K V)} {call : Call K V} {k : K} {v : V} {n : Nat}
    (hcover : ∀ keys v', call = .cover keys v' → k ∉ keys) :
    Holds (calls ++ [call]) k v n ↔ Holds calls k v n ∧ call ≠ .withdraw n := by
  constructor
  · intro ⟨before, keys, after, hcalls, hn, hk, hlast, hwithdraw⟩
    cases List.eq_nil_or_concat after with
    | inl hnil =>
      subst hnil
      obtain ⟨rfl, hcall⟩ := List.append_inj' hcalls rfl
      exact absurd hk (hcover keys v (List.cons.inj hcall).1)
    | inr h =>
      obtain ⟨after, other, rfl⟩ := h
      rw [List.concat_eq_append] at hcalls hlast hwithdraw
      rw [← List.cons_append, ← List.append_assoc] at hcalls
      obtain ⟨rfl, hcall⟩ := List.append_inj' hcalls rfl
      obtain rfl := (List.cons.inj hcall).1
      refine ⟨⟨before, keys, after, rfl, hn, hk, fun keys' v' hmem => ?_, fun hmem => ?_⟩, fun heq => ?_⟩
      · exact hlast keys' v' (List.mem_append_left _ hmem)
      · exact hwithdraw (List.mem_append_left _ hmem)
      · exact hwithdraw (List.mem_append_right _ (heq ▸ List.mem_singleton_self _))
  · intro ⟨⟨before, keys, after, hcalls, hn, hk, hlast, hwithdraw⟩, hne⟩
    refine ⟨before, keys, after ++ [call], by simp [hcalls], hn, hk, fun keys' v' hmem => ?_, fun hmem => ?_⟩
    · cases List.mem_append.mp hmem with
      | inl hmem => exact hlast keys' v' hmem
      | inr hmem => exact hcover keys' v' (List.mem_singleton.mp hmem).symm
    · cases List.mem_append.mp hmem with
      | inl hmem => exact hwithdraw hmem
      | inr hmem => exact hne (List.mem_singleton.mp hmem).symm

/-- A call holds the keys that it covers. -/
theorem holds_concat_cover {calls : List (Call K V)} {keys : List K} {k : K} {v v' : V} {n : Nat} (hk : k ∈ keys) :
    Holds (calls ++ [.cover keys v']) k v n ↔ v = v' ∧ n = (covered calls).length := by
  constructor
  · intro ⟨before, keys', after, hcalls, hn, _, hlast, _⟩
    cases List.eq_nil_or_concat after with
    | inl hnil =>
      subst hnil
      obtain ⟨rfl, hcall⟩ := List.append_inj' hcalls rfl
      obtain ⟨_, rfl⟩ := Call.cover.inj (List.cons.inj hcall).1
      exact ⟨rfl, hn⟩
    | inr h =>
      obtain ⟨after, other, rfl⟩ := h
      rw [List.concat_eq_append] at hcalls hlast
      rw [← List.cons_append, ← List.append_assoc] at hcalls
      obtain ⟨rfl, hcall⟩ := List.append_inj' hcalls rfl
      obtain rfl := (List.cons.inj hcall).1
      exact absurd hk (hlast keys v' (by simp))
  · intro ⟨hv, hn⟩
    subst hv
    exact ⟨calls, keys, [], rfl, hn, hk, by simp, by simp⟩

/-! ## The map -/

variable [DecidableEq K]

/-- Set each key to a value. -/
def insertAll {E : Type} (entry : E) (keys : List K) (entries : FiniteMap K E) : FiniteMap K E :=
  keys.foldl (fun entries k => entries.insert k entry) entries

/-- Remove each key whose entry is owned. -/
def eraseOwned {E : Type} (owned : E → Bool) (keys : List K) (entries : FiniteMap K E) : FiniteMap K E :=
  keys.foldl (fun entries k =>
    match entries.lookup k with
    | none => entries
    | some entry => if owned entry then entries.erase k else entries) entries

theorem lookup_insertAll {E : Type} (entry : E) (keys : List K) (entries : FiniteMap K E) (k : K) :
    (insertAll entry keys entries).lookup k = if k ∈ keys then some entry else entries.lookup k := by
  induction keys generalizing entries with
  | nil => simp [insertAll]
  | cons key keys ih =>
    rw [insertAll, List.foldl_cons, ← insertAll, ih]
    by_cases hk : k = key
    · subst hk
      simp [AList.lookup_insert]
    · simp [AList.lookup_insert_ne hk, hk]

theorem lookup_eraseOwned {E : Type} (owned : E → Bool) (keys : List K) (entries : FiniteMap K E) (k : K) :
    (eraseOwned owned keys entries).lookup k =
      if k ∈ keys then (entries.lookup k).filter (!owned ·) else entries.lookup k := by
  have hfilter (found : Option E) : (found.filter (!owned ·)).filter (!owned ·) = found.filter (!owned ·) := by
    rw [Option.filter_filter]
    simp only [Bool.and_self]
  induction keys generalizing entries with
  | nil => simp [eraseOwned]
  | cons key keys ih =>
    rw [eraseOwned, List.foldl_cons, ← eraseOwned, ih]
    by_cases hk : k = key
    · subst hk
      have hstep : (match entries.lookup k with
          | none => entries
          | some entry => if owned entry then entries.erase k else entries).lookup k =
          (entries.lookup k).filter (!owned ·) := by
        cases hentry : entries.lookup k with
        | none => simpa using hentry
        | some entry => cases hown : owned entry <;> simp [hentry, hown, Option.filter]
      simp only [hstep, hfilter, List.mem_cons_self, if_true, ite_self]
    · have hstep : (match entries.lookup key with
          | none => entries
          | some entry => if owned entry then entries.erase key else entries).lookup k = entries.lookup k := by
        cases entries.lookup key with
        | none => rfl
        | some entry => cases hown : owned entry <;> simp [hown, AList.lookup_erase_ne hk]
      simp only [hstep, List.mem_cons, hk, false_or]

/-! ## Handles -/

/-- What a call returns: its keys and its token. -/
structure Handle (K : Type) where
  keys : List K
  token : Nat

/-- Set the keys under a token. -/
def cover (entries : FiniteMap K (V × Nat)) (keys : List K) (v : V) (token : Nat) :
    FiniteMap K (V × Nat) × Handle K :=
  (insertAll (v, token) keys entries, { keys, token })

/-- Remove the keys whose entries bear the token. -/
def Handle.withdraw (handle : Handle K) (entries : FiniteMap K (V × Nat)) : FiniteMap K (V × Nat) :=
  eraseOwned (fun entry => entry.2 == handle.token) handle.keys entries

/-- A map and the handles that its calls have returned.  Tokens are fresh. -/
structure Registry (K V : Type) where
  entries : FiniteMap K (V × Nat) := ∅
  handles : List (Handle K) := []

/-- One call. -/
def Registry.call (r : Registry K V) : Call K V → Registry K V
  | .cover keys v =>
    let (entries, handle) := cover r.entries keys v r.handles.length
    { entries, handles := r.handles ++ [handle] }
  | .withdraw n =>
    match r.handles[n]? with
    | none => r
    | some handle => { r with entries := handle.withdraw r.entries }

def run (calls : List (Call K V)) : Registry K V := calls.foldl Registry.call {}

theorem run_concat (calls : List (Call K V)) (call : Call K V) : run (calls ++ [call]) = (run calls).call call :=
  List.foldl_concat ..

/-- The handles that were returned. -/
theorem handles_run (calls : List (Call K V)) :
    (run calls).handles = (covered calls).mapIdx fun n keys => { keys, token := n } := by
  induction calls using List.reverseRecOn with
  | nil => rfl
  | append_singleton calls call ih =>
    rw [run_concat]
    cases call with
    | cover keys v =>
      rw [covered_concat_cover, List.mapIdx_concat, ← ih]
      simp [Registry.call, cover, ih]
    | withdraw n =>
      rw [covered_concat_withdraw, ← ih, Registry.call]
      cases (run calls).handles[n]? <;> rfl

/-- The map holds what the calls say. -/
theorem lookup_run (calls : List (Call K V)) (k : K) (v : V) (n : Nat) :
    (run calls).entries.lookup k = some (v, n) ↔ Holds calls k v n := by
  induction calls using List.reverseRecOn generalizing v n with
  | nil => exact iff_of_false (by simp [run]) (holds_nil k v n)
  | append_singleton calls call ih =>
    rw [run_concat]
    cases call with
    | cover keys v' =>
      have hlength : (run calls).handles.length = (covered calls).length := by rw [handles_run, List.length_mapIdx]
      simp only [Registry.call, cover, lookup_insertAll, hlength]
      by_cases hk : k ∈ keys
      · rw [if_pos hk, holds_concat_cover hk, Option.some.injEq, Prod.mk.injEq, eq_comm, @eq_comm _ _ n]
      · rw [if_neg hk, ih, holds_concat fun keys'' v'' heq => (Call.cover.inj heq).1 ▸ hk]
        simp
    | withdraw m =>
      have hconcat : Holds (calls ++ [.withdraw m]) k v n ↔
          (run calls).entries.lookup k = some (v, n) ∧ (.withdraw m : Call K V) ≠ .withdraw n := by
        rw [ih]
        refine holds_concat fun keys v' heq => ?_
        cases heq
      rw [hconcat]
      have hhandle : (run calls).handles[m]? = (covered calls)[m]?.map fun keys => { keys, token := m } := by
        rw [handles_run, List.getElem?_mapIdx]
      rw [Registry.call, hhandle]
      -- The holder of the key covered it, so its handle goes by the key.
      have hholder (h : (run calls).entries.lookup k = some (v, n)) :
          ∃ keys, (covered calls)[n]? = some keys ∧ k ∈ keys :=
        ((ih v n).mp h).covered
      cases hkeys : (covered calls)[m]? with
      | none =>
        refine (and_iff_left_of_imp fun h heq => ?_).symm
        obtain ⟨keys, hn, _⟩ := hholder h
        rw [Call.withdraw.inj heq, hn] at hkeys
        cases hkeys
      | some keys =>
        show (eraseOwned (fun entry => entry.2 == m) keys (run calls).entries).lookup k = some (v, n) ↔ _
        rw [lookup_eraseOwned]
        split
        · rw [Option.filter_eq_some_iff]
          refine and_congr_right fun _ => ?_
          grind
        · next hk =>
          refine (and_iff_left_of_imp fun h heq => ?_).symm
          obtain ⟨keys', hn, hk'⟩ := hholder h
          rw [Call.withdraw.inj heq, hn] at hkeys
          exact hk (Option.some.inj hkeys ▸ hk')

/-- A handle leaves the entries of other calls. -/
theorem lookup_withdraw {r : Registry K V} {k : K} {entry : V × Nat} {n : Nat}
    (hhandles : ∀ handle, r.handles[n]? = some handle → handle.token = n)
    (hentry : r.entries.lookup k = some entry) (hother : entry.2 ≠ n) :
    (r.call (.withdraw n)).entries.lookup k = some entry := by
  rw [Registry.call]
  cases hhandle : r.handles[n]? with
  | none => exact hentry
  | some handle =>
    show (eraseOwned (fun entry => entry.2 == handle.token) handle.keys r.entries).lookup k = some entry
    rw [lookup_eraseOwned, hentry, hhandles handle hhandle]
    split
    · simp [Option.filter, hother]
    · rfl

/-- The handles of a run bear their own numbers. -/
theorem token_handles_run {calls : List (Call K V)} {n : Nat} {handle : Handle K}
    (h : (run calls).handles[n]? = some handle) : handle.token = n := by
  rw [handles_run, List.getElem?_mapIdx] at h
  obtain ⟨keys, _, rfl⟩ := Option.map_eq_some_iff.mp h
  rfl

end Ownership
