import Mathlib.Data.List.Nodup
import TideSql.Handler.Txn

/-!
# Recovery of prepared transactions

`tidesdb_recover` hands the server the stored XIDs in batches, and the server
resolves each by its log through `tidesdb_commit_by_xid` or
`tidesdb_rollback_by_xid`.
-/

namespace TideSql.Recovery
open XidKey Txn List

/-- One batch: the XIDs of at most `len` well-formed keys, and the keys after the cursor. -/
def tidesdbRecover : Nat → List Key → List Xid × List Key
  | 0, keys => ([], keys)
  | _ + 1, [] => ([], [])
  | len + 1, key :: keys =>
    match tdbXidFromKey key with
    | none => tidesdbRecover (len + 1) keys
    | some xid => (xid :: (tidesdbRecover len keys).1, (tidesdbRecover len keys).2)

section

variable (len : Nat) (keys : List Key)

theorem recover_splits : (tidesdbRecover len keys).1 ++ (tidesdbRecover len keys).2.filterMap tdbXidFromKey =
      keys.filterMap tdbXidFromKey := by
  induction keys generalizing len with
  | nil => cases len <;> rfl
  | cons key keys ih =>
    cases len with
    | zero => rfl
    | succ len =>
      rw [tidesdbRecover, filterMap_cons]
      split <;> rename_i h
      · simp only [h]
        exact ih (len + 1)
      · simp only [h, cons_append, ih len]

theorem recover_rest_length :
    (tidesdbRecover len keys).1.length + (tidesdbRecover len keys).2.length ≤ keys.length := by
  induction keys generalizing len with
  | nil => cases len <;> simp [tidesdbRecover]
  | cons key keys ih =>
    cases len with
    | zero => simp [tidesdbRecover]
    | succ len =>
      rw [tidesdbRecover]
      split
      · have := ih (len + 1)
        rw [length_cons]
        omega
      · have := ih len
        simp only [length_cons]
        omega

theorem recover_rest_of_short (h : (tidesdbRecover len keys).1.length < len) : (tidesdbRecover len keys).2 = [] := by
  induction keys generalizing len with
  | nil =>
    cases len with
    | zero => cases h
    | succ len => rfl
  | cons key keys ih =>
    cases len with
    | zero => cases h
    | succ len =>
      rw [tidesdbRecover] at h ⊢
      split at h <;> rename_i hKey
      · exact ih (len + 1) h
      · exact ih len (Nat.lt_of_succ_lt_succ h)

end

def drain (len : Nat) (keys : List Key) : List Xid :=
  if _h : (tidesdbRecover len keys).1 = [] then []
  else if (tidesdbRecover len keys).1.length < len then (tidesdbRecover len keys).1
  else (tidesdbRecover len keys).1 ++ drain len (tidesdbRecover len keys).2
termination_by keys.length
decreasing_by
  have := recover_rest_length len keys
  have := List.length_pos_iff.mpr _h
  omega

theorem drain_eq (len : Nat) (keys : List Key) (hLen : 0 < len) : drain len keys = keys.filterMap tdbXidFromKey := by
  induction keys using drain.induct len with
  | case1 keys h =>
    have hRest := recover_rest_of_short len keys (by rw [h]; exact hLen)
    rw [drain, dif_pos h, ← recover_splits len keys, h, hRest, nil_append, filterMap_nil]
  | case2 keys h hShort =>
    rw [drain, dif_neg h, if_pos hShort, ← recover_splits len keys, recover_rest_of_short len keys hShort,
      filterMap_nil, append_nil]
  | case3 keys h hFull ih =>
    rw [drain, dif_neg h, if_neg hFull, ih, recover_splits]

variable {ω : Type}

def resolveXid (log : Xid → Bool) (st : Storage ω) (xid : Xid) : Storage ω :=
  if log xid then st.commitPrepared (tdbXidKey xid) else st.rollbackPrepared (tdbXidKey xid)

/-- The restart: nothing that was only in memory is left, and every XID is resolved by the log. -/
def recover (len : Nat) (log : Xid → Bool) (st : Storage ω) : Storage ω :=
  (drain len (st.inDoubt.map Prod.fst)).foldl (resolveXid log) st

section

variable (log : Xid → Bool) (st : Storage ω) (xid xid' : Xid)

theorem written_resolveXid : (resolveXid log st xid).written (tdbXidKey xid') =
      st.written (tdbXidKey xid') ++ if xid = xid' ∧ log xid' then st.doubted (tdbXidKey xid') else [] := by
  obtain rfl | h := eq_or_ne xid xid'
  · cases hLog : log xid <;> simp [resolveXid, hLog]
  · have hKey : tdbXidKey xid ≠ tdbXidKey xid' := tdbXidKey_injective.ne h
    cases hLog : log xid <;> simp [resolveXid, hLog, h, hKey]

theorem doubted_resolveXid : (resolveXid log st xid).doubted (tdbXidKey xid') =
      if xid = xid' then [] else st.doubted (tdbXidKey xid') := by
  obtain rfl | h := eq_or_ne xid xid'
  · cases hLog : log xid <;> simp [resolveXid, hLog]
  · have hKey : tdbXidKey xid ≠ tdbXidKey xid' := tdbXidKey_injective.ne h
    cases hLog : log xid <;> simp [resolveXid, hLog, h, hKey]

end

theorem written_resolve (log : Xid → Bool) (xids : List Xid) (st : Storage ω) (xid : Xid) :
    (xids.foldl (resolveXid log) st).written (tdbXidKey xid) =
      st.written (tdbXidKey xid) ++ if xid ∈ xids ∧ log xid then st.doubted (tdbXidKey xid) else [] := by
  induction xids generalizing st with
  | nil => simp
  | cons x xids ih =>
    rw [foldl_cons, ih, written_resolveXid, doubted_resolveXid]
    obtain rfl | h := eq_or_ne x xid
    · cases log x <;> simp
    · simp [h, h.symm]

theorem written_recover (len : Nat) (hLen : 0 < len) (log : Xid → Bool) (st : Storage ω) (xid : Xid) :
    (recover len log st).written (tdbXidKey xid) =
      st.written (tdbXidKey xid) ++ if log xid then st.doubted (tdbXidKey xid) else [] := by
  rw [recover, drain_eq len _ hLen, written_resolve, append_cancel_left_eq]
  cases hFind : st.inDoubt.find? (·.1 = tdbXidKey xid) with
  | none => simp [Storage.doubted, hFind]
  | some batch =>
    have hMem := mem_of_find?_eq_some hFind
    have hKey : batch.1 = tdbXidKey xid := by simpa using find?_some hFind
    have hXid : xid ∈ (st.inDoubt.map Prod.fst).filterMap tdbXidFromKey := by
      refine List.mem_filterMap.mpr ⟨batch.1, mem_map_of_mem hMem, ?_⟩
      rw [hKey, tdbXidFromKey_tdbXidKey]
    simp only [hXid, true_and]

structure Cursor where
  loaded : Bool
  keys : List Key

def tdbLoadRecoveredPrepared (listed : List Key) (c : Cursor) : Cursor :=
  if c.loaded then c else ⟨true, c.keys ++ listed⟩

def recoverCalls (listed : List Key) : List Nat → Cursor → List (List Xid)
  | [], _ => []
  | len :: lens, c =>
    if len = 0 then [] :: recoverCalls listed lens c
    else
      let c := tdbLoadRecoveredPrepared listed c
      (tidesdbRecover len c.keys).1 :: recoverCalls listed lens { c with keys := (tidesdbRecover len c.keys).2 }

section HandOut

variable {listed : List Key} {lens : List Nat}

theorem recover_length_le (len : Nat) (keys : List Key) : (tidesdbRecover len keys).1.length ≤ len := by
  induction keys generalizing len with
  | nil => cases len <;> exact Nat.zero_le _
  | cons key keys ih =>
    cases len with
    | zero => exact le_rfl
    | succ len =>
      rw [tidesdbRecover]
      split
      · exact ih (len + 1)
      · exact Nat.succ_le_succ (ih len)

theorem recover_full_or_last (len : Nat) (keys : List Key) :
    (tidesdbRecover len keys).1.length = len ∨ (tidesdbRecover len keys).1 = keys.filterMap tdbXidFromKey ∧
      (tidesdbRecover len keys).2 = [] := by
  obtain hShort | hFull := Nat.lt_or_eq_of_le (recover_length_le len keys)
  · have hRest := recover_rest_of_short len keys hShort
    have hAll := recover_splits len keys
    rw [hRest, filterMap_nil, append_nil] at hAll
    exact .inr ⟨hAll, hRest⟩
  · exact .inl hFull

theorem recoverCalls_loaded {len : Nat} (hLen : 0 < len) (keys : List Key) :
    recoverCalls listed (len :: lens) ⟨true, keys⟩ =
      (tidesdbRecover len keys).1 :: recoverCalls listed lens ⟨true, (tidesdbRecover len keys).2⟩ :=
  if_neg hLen.ne'

theorem flatten_recoverCalls (hLens : ∀ len ∈ lens, 0 < len) (keys : List Key) :
    (recoverCalls listed lens ⟨true, keys⟩).flatten = (keys.filterMap tdbXidFromKey).take lens.sum := by
  induction lens generalizing keys with
  | nil => rfl
  | cons len lens ih =>
    obtain ⟨hLen, hLens⟩ := forall_mem_cons.mp hLens
    rw [recoverCalls_loaded hLen, flatten_cons, ih hLens, sum_cons]
    obtain hFull | ⟨hAll, hRest⟩ := recover_full_or_last len keys
    · have hWhole : (tidesdbRecover len keys).1.take (len + lens.sum) = (tidesdbRecover len keys).1 :=
        take_of_length_le (by omega)
      rw [← recover_splits len keys, take_append, hWhole, hFull, Nat.add_sub_cancel_left]
    · have hLe := recover_length_le len keys
      rw [hRest, filterMap_nil, take_nil, append_nil, ← hAll, take_of_length_le (by omega)]

theorem short_recoverCalls (hLens : ∀ len ∈ lens, 0 < len) (keys : List Key) {i len : Nat} {batch : List Xid}
    (hAsked : lens[i]? = some len) (hBatch : (recoverCalls listed lens ⟨true, keys⟩)[i]? = some batch)
    (hShort : batch.length < len) :
    ((recoverCalls listed lens ⟨true, keys⟩).take (i + 1)).flatten = keys.filterMap tdbXidFromKey := by
  induction lens generalizing keys i with
  | nil => cases hAsked
  | cons len' lens ih =>
    obtain ⟨hLen, hLens⟩ := forall_mem_cons.mp hLens
    rw [recoverCalls_loaded hLen] at hBatch ⊢
    cases i with
    | zero =>
      cases hAsked
      cases hBatch
      rw [take_succ_cons, take_zero, flatten_singleton]
      exact ((recover_full_or_last len keys).resolve_left hShort.ne).1
    | succ i =>
      rw [take_succ_cons, flatten_cons, ih hLens _ hAsked hBatch, recover_splits]

theorem recovered_perm {prepared : List Xid} (hListed : listed.Nodup) (hPrepared : prepared.Nodup)
    (hKeys : ∀ xid, tdbXidKey xid ∈ listed ↔ xid ∈ prepared) : (listed.filterMap tdbXidFromKey).Perm prepared := by
  refine (perm_ext_iff_of_nodup (Nodup.filterMap (fun key key' xid h h' => ?_) hListed) hPrepared).mpr fun xid => ?_
  · exact (tdbXidKey_of_tdbXidFromKey h).symm.trans (tdbXidKey_of_tdbXidFromKey h')
  · rw [mem_filterMap, ← hKeys]
    constructor
    · rintro ⟨key, hKey, hXid⟩
      exact tdbXidKey_of_tdbXidFromKey hXid ▸ hKey
    · exact fun hKey => ⟨_, hKey, tdbXidFromKey_tdbXidKey xid⟩

theorem prepared_xids_handed_out (listed : List Key) (prepared : List Xid) (lens : List Nat)
    (hListed : listed.Nodup) (hPrepared : prepared.Nodup)
    (hKeys : ∀ xid, tdbXidKey xid ∈ listed ↔ xid ∈ prepared) (hLens : ∀ len ∈ lens, 0 < len) :
    ∃ order : List Xid, order.Perm prepared ∧ (recoverCalls listed lens ⟨false, []⟩).flatten = order.take lens.sum ∧
      ∀ i len batch, lens[i]? = some len → (recoverCalls listed lens ⟨false, []⟩)[i]? = some batch →
        batch.length < len → ((recoverCalls listed lens ⟨false, []⟩).take (i + 1)).flatten = order := by
  have hLoad : recoverCalls listed lens ⟨false, []⟩ = recoverCalls listed lens ⟨true, listed⟩ := by
    cases lens with
    | nil => rfl
    | cons len lens =>
      have hLen := hLens len mem_cons_self
      rw [recoverCalls_loaded hLen, recoverCalls, if_neg hLen.ne']
      rfl
  rw [hLoad]
  exact ⟨_, recovered_perm hListed hPrepared hKeys, flatten_recoverCalls hLens listed,
    fun i len batch hAsked hBatch hShort => short_recoverCalls hLens listed hAsked hBatch hShort⟩

def first : Xid := ⟨1, [7], [], by decide⟩

def second : Xid := ⟨1, [8], [1], by decide⟩

theorem two_xids_handed_out : ∃ order : List Xid, order.Perm [first, second] ∧
    (recoverCalls [[0], tdbXidKey second, tdbXidKey first] [1, 1, 1] ⟨false, []⟩).flatten = order.take 3 ∧
    recoverCalls [[0], tdbXidKey second, tdbXidKey first] [1, 1, 1] ⟨false, []⟩ = [[second], [first], []] := by
  have hOther (xid : Xid) : tdbXidKey xid ≠ [0] := by
    intro h
    have hNone := tdbXidFromKey_tdbXidKey xid
    rw [h] at hNone
    cases hNone
  obtain ⟨order, hPerm, hAll, -⟩ := prepared_xids_handed_out [[0], tdbXidKey second, tdbXidKey first]
    [first, second] [1, 1, 1] (by decide) (by decide)
    (fun xid => by simp [hOther, tdbXidKey_injective.eq_iff, or_comm]) (by decide)
  exact ⟨order, hPerm, hAll, rfl⟩

end HandOut

end TideSql.Recovery
