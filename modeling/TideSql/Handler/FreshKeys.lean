import TideSql.Handler.GeneratedKeys

/-!
# A generated key is fresh

As long as the counters are past every number and row id that is stored or may still be stored, `write_row`
need not look a generated key up.
-/

namespace TideSql.GeneratedKeys
open KeyCodec SortKey IndexRead AutoIncrement Dml Lib Lib.ByteOrder Lib.Bytes Lib.Snapshot Lib.Run List Nat Option

section Fresh

variable {τ ι β : Type}

def Sole (K : Keyed ι β) (a : AutoColumn ι) (p : KeyPart ι) : Prop :=
  K.auto = some a ∧ K.table.pkParts = some [p] ∧ p.col = a.field.col

/-- What the server's field does with numbers. The column has no NULL, and its sort strings are ordered as
the numbers are. -/
structure Lawful (K : Keyed ι β) (a : AutoColumn ι) (p : KeyPart ι) : Prop where
  notNull : p.field.nullable = false
  bound : ∀ b, a.valInt b < 2 ^ 64
  sort : ∀ b b', K.table.sorts.write p.field p.length b ≤ K.table.sorts.write p.field p.length b' ↔
    a.valInt b ≤ a.valInt b'

/-- The value of an insert, given or generated, is nobody else's. -/
structure InsertFree [DecidableEq ι] (K : Keyed ι β) (a : AutoColumn ι) (s : State τ ι) (i : τ) (req : Request ι) :
    Prop where
  fits : s.share.autoIncVal.toNat + desired req.reserves < 2 ^ 64
  generated : a.number req.buf = 0 → ∀ buf, req.filled.row a req.buf = some buf →
    ∃ n ∈ handedTo K s i req, a.number buf = n
  explicit : a.number req.buf ≠ 0 → ∀ buf, req.filled.row a req.buf = some buf →
    ∀ j, j ≠ i → ∀ n ∈ s.handed j, (n : Int) ≠ a.number buf

def Guard [DecidableEq ι] (K : Keyed ι β) (s : State τ ι) : Action τ ι → Prop
  | .insert i req =>
    req.session.skipUnique = false ∧ req.session.writeCanReplace = false ∧
      (K.table.pkParts = none → s.share.nextRowId.toNat + 1 < 2 ^ 64) ∧
      (∀ a p, K.auto = some a → K.table.pkParts = some [p] → a.number req.buf = 0 → Sole K a p) ∧
      ∀ a p, Sole K a p → InsertFree K a s i req
  | .update i _ currentPk old new _ =>
    (∀ t, s.world.active i = some t → t.view.get (dataKey currentPk) = some (.row old)) ∧
      ∀ a p, Sole K a p → a.number new = a.number old ∨
        a.number new ≤ s.share.autoIncVal.toNat ∧ ∀ j, ∀ n ∈ s.handed j, (n : Int) ≠ a.number new
  | .restart f => f = .allOk ∧ ∀ a p, Sole K a p → p.desc = false
  | .resetAutoIncrement value _ =>
    s.share.autoIncVal.toNat < value.toNat ∧ s.share.nextRowId.toNat ≤ value.toNat
  | _ => True

structure RowOk (K : Keyed ι β) (share : Share) (handed : τ → List Nat) (pk : Bytes) (r : Row ι) : Prop where
  own : pkFromRecord K.table pk r = pk
  counted : ∀ a p, Sole K a p → a.number r ≤ share.autoIncVal.toNat
  apart : ∀ a p, Sole K a p → ∀ j, ∀ n ∈ handed j, (n : Int) ≠ a.number r
  rowId : K.table.pkParts = none → ∃ n, pk = toBE hiddenPkSize n ∧ n < share.nextRowId.toNat

structure Inv (K : Keyed ι β) (s : State τ ι) : Prop where
  rows : Rows (RowOk K s.share s.handed) s.world
  passed : ∀ a p, Sole K a p → ∀ j, ∀ n ∈ s.handed j, n ≤ s.share.autoIncVal.toNat
  disjoint : ∀ a p, Sole K a p → ∀ j k, j ≠ k → (s.handed j).Disjoint (s.handed k)

/-- The counters only rise, and the numbers of the sessions are old ones or above the counter. -/
structure Grown (K : Keyed ι β) (share share' : Share) (handed handed' : τ → List Nat) : Prop where
  counter : ∀ a p, Sole K a p → share.autoIncVal.toNat ≤ share'.autoIncVal.toNat
  rowId : K.table.pkParts = none → share.nextRowId.toNat ≤ share'.nextRowId.toNat
  handed : ∀ a p, Sole K a p → ∀ j, ∀ n ∈ handed' j, n ∈ handed j ∨ share.autoIncVal.toNat < n

theorem RowOk.mono {K : Keyed ι β} {share share' : Share} {handed handed' : τ → List Nat} {pk : Bytes} {r : Row ι}
    (h : RowOk K share handed pk r) (hGrown : Grown K share share' handed handed') : RowOk K share' handed' pk r where
  own := h.own
  counted a p hSole := by
    have hOld := h.counted a p hSole
    have hLe := hGrown.counter a p hSole
    omega
  apart a p hSole j n hn := by
    obtain hOld | hAbove := hGrown.handed a p hSole j n hn
    · exact h.apart a p hSole j n hOld
    · have hCounted := h.counted a p hSole
      omega
  rowId hHidden := by
    obtain ⟨n, hPk, hn⟩ := h.rowId hHidden
    exact ⟨n, hPk, lt_of_lt_of_le hn (hGrown.rowId hHidden)⟩

section Take

variable {K : Keyed ι β} {a : AutoColumn ι} {p : KeyPart ι} {s : State τ ι} {i : τ} {req : Request ι}

theorem mem_handedTo (hFits : s.share.autoIncVal.toNat + desired req.reserves < 2 ^ 64) {n : Nat}
    (h : n ∈ handedTo K s i req) : n ∈ s.handed i ∨
      s.share.autoIncVal.toNat < n ∧ n ≤ (reserve s.share req.reserves).autoIncVal.toNat := by
  obtain ⟨hCounter, hOut⟩ := reserve_spec hFits
  obtain hOld | hNew := mem_append.mp h
  · exact .inl hOld
  · split at hNew
    · exact .inr ⟨(hOut n hNew).1, hCounter ▸ (hOut n hNew).2⟩
    · cases hNew

theorem gen_eq_true {buf : Row ι}
    (h : (a.number buf == 0 && K.table.pkParts.any fun parts => parts.length == 1) = true) :
    a.number buf = 0 ∧ ∃ p, K.table.pkParts = some [p] := by
  obtain ⟨hZero, hAny⟩ := Bool.and_eq_true_iff.mp h
  cases hParts : K.table.pkParts with
  | none =>
    rw [hParts] at hAny
    cases hAny
  | some parts =>
    rw [hParts] at hAny
    obtain ⟨p, rfl⟩ := length_eq_one_iff.mp (eq_of_beq hAny)
    exact ⟨eq_of_beq hZero, p, rfl⟩

theorem takeRowId_lt {share : Share} (hHidden : K.table.pkParts = none) (hFits : share.nextRowId.toNat + 1 < 2 ^ 64) :
    share.nextRowId.toNat < (takeRowId K share).nextRowId.toNat := by
  rw [takeRowId, hHidden, isNone_none, if_pos rfl, UInt64.toNat_add, UInt64.toNat_one, mod_eq_of_lt hFits]
  exact lt_succ_self _

theorem takeRowId_of_sole (hSole : Sole K a p) (share : Share) : takeRowId K share = share := by
  rw [takeRowId, hSole.2.1, isNone_some, if_neg Bool.false_ne_true]

variable [DecidableEq ι]

/-- The record that is written, whether its key is taken for generated, and the counters after it. -/
structure Written (K : Keyed ι β) (s : State τ ι) (req : Request ι) (share : Share) (gen : Bool) (buf : Row ι) :
    Prop where
  filled : ∀ a, K.auto = some a → req.filled.row a req.buf = some buf
  gen : gen = true → ∃ a, K.auto = some a ∧ a.number req.buf = 0 ∧ ∃ p, K.table.pkParts = some [p]
  counter : ∀ a p, Sole K a p → share = bumpTo (reserve s.share req.reserves) (ulonglong (a.number buf))

theorem prepareWrite_none (h : (prepareWrite K s.share req).1 = none) :
    (prepareWrite K s.share req).2 = reserve s.share req.reserves := by
  rw [prepareWrite] at h ⊢
  split at h
  · cases h
  · rename_i a hAuto
    simp only [writeRowAutoIncrement] at h ⊢
    cases hRow : req.filled.row a req.buf with
    | none => rfl
    | some buf =>
      simp only [hRow] at h
      cases h

theorem prepareWrite_some {c : Call ι} (h : (prepareWrite K s.share req).1 = some c) :
    ∃ gen buf, c = .write gen s.share.nextRowId.toNat buf ∧ Written K s req (prepareWrite K s.share req).2 gen buf ∧
      (K.table.pkParts = none → s.share.nextRowId.toNat + 1 < 2 ^ 64 →
        s.share.nextRowId.toNat < (prepareWrite K s.share req).2.nextRowId.toNat) := by
  rw [prepareWrite] at h ⊢
  cases hAuto : K.auto with
  | none =>
    simp only [hAuto] at h ⊢
    cases h
    refine ⟨false, req.buf, rfl, ⟨fun a ha => ?_, fun hGen => (by cases hGen), fun a p hSole => ?_⟩, takeRowId_lt⟩
    · cases hAuto.symm.trans ha
    · cases hAuto.symm.trans hSole.1
  | some b =>
    simp only [hAuto, writeRowAutoIncrement] at h ⊢
    cases hRow : req.filled.row b req.buf with
    | none =>
      simp only [hRow] at h
      cases h
    | some buf =>
      simp only [hRow] at h ⊢
      cases h
      have hSame : (bumpTo (reserve s.share req.reserves) (ulonglong (b.number buf))).nextRowId = s.share.nextRowId :=
        (nextRowId_bumpTo ..).trans (nextRowId_reserve ..)
      refine ⟨_, buf, by rw [hSame], ⟨fun a ha => ?_, fun hGen => ?_, fun a p hSole => ?_⟩, fun hHidden hFits => ?_⟩
      · cases hAuto.symm.trans ha
        exact hRow
      · exact ⟨b, hAuto, gen_eq_true hGen⟩
      · cases hAuto.symm.trans hSole.1
        rw [takeRowId_of_sole hSole]
      · have hLt := takeRowId_lt hHidden (hSame ▸ hFits)
        rwa [hSame] at hLt

end Take

section Recover

variable {K : Keyed ι β} {a : AutoColumn ι} {p : KeyPart ι}

section

variable (hLaw : Lawful K a p) (hSole : Sole K a p)
include hLaw hSole

theorem comparableKey_of_sole (r : Row ι) :
    comparableSpan K.table.sorts p r = K.table.sorts.write p.field p.length ((r a.field.col).getD []) := by
  rw [comparableSpan, if_neg (by rw [hLaw.notNull]; exact Bool.false_ne_true), hSole.2.2]

theorem number_eq_of_key {pk pk' : Bytes} {r r' : Row ι} (h : pkFromRecord K.table pk r = pkFromRecord K.table pk' r') :
    a.number r = a.number r' := by
  simp only [pkFromRecord, hSole.2.1, makeComparableKey, flatMap_singleton] at h
  have hSpan := comparableSpan_of_comparablePart h
  rw [comparableKey_of_sole hLaw hSole, comparableKey_of_sole hLaw hSole] at hSpan
  exact le_antisymm ((hLaw.sort _ _).mp (le_of_eq hSpan)) ((hLaw.sort _ _).mp (le_of_eq hSpan.symm))

theorem number_le_of_key (hAsc : p.desc = false) (pk pk' : Bytes) {r r' : Row ι}
    (h : pkFromRecord K.table pk r ≤ pkFromRecord K.table pk' r') : a.number r ≤ a.number r' := by
  simp only [pkFromRecord, hSole.2.1, makeComparableKey, flatMap_singleton, comparablePart, hAsc,
    Bool.false_eq_true, if_false] at h
  rw [comparableKey_of_sole hLaw hSole, comparableKey_of_sole hLaw hSole] at h
  exact (hLaw.sort _ _).mp h

end

theorem le_lastKey {keys : List Bytes} {k : Bytes} (h : lastKey keys = some k) : k ∈ keys ∧ ∀ k' ∈ keys, k' ≤ k := by
  obtain ⟨before, hSplit⟩ := getLast?_eq_some_iff.mp h
  have hSorted := pairwise_insertionSort (· ≤ ·) keys
  have hMem : ∀ x, x ∈ keys ↔ x ∈ before ++ [k] := fun x => by rw [← hSplit, mem_insertionSort]
  rw [hSplit, pairwise_append] at hSorted
  refine ⟨(hMem k).mpr (mem_append_right _ mem_cons_self), fun k' hk' => ?_⟩
  obtain hBefore | hLast := mem_append.mp ((hMem k').mp hk')
  · exact hSorted.2.2 k' hBefore k mem_cons_self
  · exact le_of_eq (mem_singleton.mp hLast)

theorem lastKey_of_mem {keys : List Bytes} {k : Bytes} (h : k ∈ keys) : ∃ k', lastKey keys = some k' := by
  rw [← mem_insertionSort (· ≤ ·)] at h
  exact ⟨_, getLast?_eq_some_getLast (ne_nil_of_mem h)⟩

variable [DecidableEq ι]

theorem le_applyAutoIncStartMeta (start : Option UInt64) (share : Share) :
    share.autoIncVal.toNat ≤ (applyAutoIncStartMeta start share).autoIncVal.toNat ∧
      (applyAutoIncStartMeta start share).nextRowId = share.nextRowId := by
  cases start with
  | none => exact ⟨le_refl _, rfl⟩
  | some start =>
    rw [applyAutoIncStartMeta]
    split
    · rename_i hAbove
      exact ⟨le_of_lt (UInt64.lt_iff_toNat_lt.mp hAbove.2), rfl⟩
    · exact ⟨le_refl _, rfl⟩

theorem nextRowId_recoverAutoIncSecondary (K : Keyed ι β) (s : Store Key (Val ι)) (a : AutoColumn ι) (share : Share) :
    (recoverAutoIncSecondary K s a share).nextRowId = share.nextRowId := by
  rw [recoverAutoIncSecondary]
  split
  · rfl
  · split
    · rfl
    · split
      · split <;> rfl
      · rfl

theorem autoIncIsPkLeftmost_of_sole (hSole : Sole K a p) : autoIncIsPkLeftmost K a = true := by
  rw [autoIncIsPkLeftmost, hSole.2.1]
  exact decide_eq_true hSole.2.2

theorem recoverAutoIncSecondary_of_sole (hSole : Sole K a p) (s : Store Key (Val ι)) (share : Share) :
    recoverAutoIncSecondary K s a share = share := by
  rw [recoverAutoIncSecondary, autoIncIsPkLeftmost_of_sole hSole, Bool.or_true, if_pos rfl]

theorem le_recoverCounters (K : Keyed ι β) (s : Store Key (Val ι)) (start : Option UInt64) :
    (seedCounters K s ⟨0, 0⟩).nextRowId.toNat ≤ (recoverCounters K s start).nextRowId.toNat ∧
      ∀ a p, Sole K a p →
        (seedCounters K s ⟨0, 0⟩).autoIncVal.toNat ≤ (recoverCounters K s start).autoIncVal.toNat := by
  rw [recoverCounters]
  generalize seedCounters K s ⟨0, 0⟩ = seed
  obtain ⟨share, hShare, hRowId, hCounter⟩ : ∃ share, share = (if K.table.pkParts.isNone ∧ seed.nextRowId = 0 then
      { seed with nextRowId := hiddenPkFirstRowId } else seed) ∧
      seed.nextRowId.toNat ≤ share.nextRowId.toNat ∧ share.autoIncVal = seed.autoIncVal := by
    refine ⟨_, rfl, ?_⟩
    split
    · rename_i hZero
      exact ⟨by rw [hZero.2]; exact zero_le _, rfl⟩
    · exact ⟨le_refl _, rfl⟩
  rw [← hShare]
  cases hAuto : K.auto with
  | none =>
    refine ⟨hRowId, fun a p hSole => ?_⟩
    rw [hSole.1] at hAuto
    cases hAuto
  | some b =>
    obtain ⟨hLe, hSame⟩ := le_applyAutoIncStartMeta start (recoverAutoIncSecondary K s b share)
    refine ⟨?_, fun a p hSole => ?_⟩
    · rwa [hSame, nextRowId_recoverAutoIncSecondary]
    · obtain rfl : a = b := some_inj.mp (hSole.1.symm.trans hAuto)
      refine le_trans (le_of_eq ?_) hLe
      rw [recoverAutoIncSecondary_of_sole hSole, hCounter]

section

variable {s : Store Key (Val ι)} {pk : Bytes} {r : Row ι} (hLast : lastKey (dataKeys s) = some (keyNsData :: pk))
  (hGet : s.get (dataKey pk) = some (.row r))
include hLast hGet

theorem autoIncVal_seedCounters (hAuto : K.auto = some a) :
    (seedCounters K s ⟨0, 0⟩).autoIncVal = if autoIncIsPkLeftmost K a then ulonglong (a.number r) else 0 := by
  rw [dataKey] at hGet
  have hData : isDataKey (keyNsData :: pk) = true := rfl
  simp only [seedCounters, hLast, hData, if_true, hGet, hAuto]
  split
  · rfl
  · split <;> rfl

theorem toNat_nextRowId_seedCounters (hHidden : K.table.pkParts = none) (hLen : pk.length = hiddenPkSize) :
    (seedCounters K s ⟨0, 0⟩).nextRowId.toNat = (ofBE pk + 1) % 2 ^ 64 := by
  rw [dataKey] at hGet
  have hData : isDataKey (keyNsData :: pk) = true := rfl
  have hSize : (keyNsData :: pk).length = 1 + hiddenPkSize := by rw [length_cons, hLen, add_comm]
  have hLt : ofBE pk < 2 ^ 64 := by
    have hLt := ofBE_lt pk
    rwa [hLen] at hLt
  have hNumber : (UInt64.ofNat (ofBE pk) + 1).toNat = (ofBE pk + 1) % 2 ^ 64 := by
    rw [UInt64.toNat_add, UInt64.toNat_ofNat_of_lt' hLt, UInt64.toNat_one]
  simp only [seedCounters, hLast, hData, if_true, hGet, hHidden, hSize, isNone_none, and_self]
  cases K.auto with
  | none => exact hNumber
  | some a =>
    dsimp only
    split <;> exact hNumber

end

omit [DecidableEq ι] in
theorem mem_dataKeys {s : Store Key (Val ι)} {key : Bytes} : key ∈ dataKeys s ↔ s.get (.data, key) ≠ none :=
  mem_names_of_family

theorem le_of_dataKey_le {pk pk' : Bytes} (h : keyNsData :: pk ≤ keyNsData :: pk') : pk ≤ pk' := by
  obtain hLt | hEq := lt_or_eq_of_le h
  · obtain hHead | ⟨-, hTail⟩ := cons_lt_cons_iff.mp hLt
    · exact absurd hHead (lt_irrefl _)
    · exact hTail.le
  · exact le_of_eq (cons.inj hEq).2

theorem rowOk_recoverCounters (hLaw : ∀ a p, Sole K a p → Lawful K a p) (hAsc : ∀ a p, Sole K a p → p.desc = false)
    {s : State τ ι} (h : Rows (RowOk K s.share s.handed) s.world) {pk : Bytes} {r : Row ι}
    (hGet : s.world.committed.get (dataKey pk) = some (.row r)) (hOk : RowOk K s.share s.handed pk r) :
    RowOk K (recoverCounters K s.world.committed s.start) (fun _ : τ => []) pk r := by
  have hMem : keyNsData :: pk ∈ dataKeys s.world.committed := mem_dataKeys.mpr fun hNone => by
    rw [dataKey, hNone] at hGet
    cases hGet
  obtain ⟨last, hLast⟩ := lastKey_of_mem hMem
  obtain ⟨hLastMem, hMax⟩ := le_lastKey hLast
  obtain ⟨v, hv⟩ := ne_none_iff_exists'.mp (mem_dataKeys.mp hLastMem)
  obtain ⟨pkLast, rLast, rfl, rfl, hLastOk⟩ := h last v (.inl hv)
  have hLe : pk ≤ pkLast := le_of_dataKey_le (hMax _ hMem)
  obtain ⟨hRowId, hCounter⟩ := le_recoverCounters K s.world.committed s.start
  refine ⟨hOk.own, fun a p hSole => ?_, fun _ _ _ _ _ hn => absurd hn not_mem_nil, fun hHidden => ?_⟩
  · have hOrder : a.number r ≤ a.number rLast := by
      refine number_le_of_key (hLaw a p hSole) hSole (hAsc a p hSole) pk pkLast ?_
      rwa [hOk.own, hLastOk.own]
    have hCast : a.number rLast ≤ (ulonglong (a.number rLast)).toNat := le_ulonglong ((hLaw a p hSole).bound _)
    have hSeeded := hCounter a p hSole
    rw [autoIncVal_seedCounters hLast hv hSole.1, autoIncIsPkLeftmost_of_sole hSole, if_pos rfl] at hSeeded
    omega
  · obtain ⟨n, rfl, hn⟩ := hOk.rowId hHidden
    obtain ⟨m, rfl, hm⟩ := hLastOk.rowId hHidden
    have hBound := s.share.nextRowId.toNat_lt
    refine ⟨n, rfl, ?_⟩
    have hBytes := ofBE_le_ofBE (by rw [length_toBE, length_toBE]) hLe
    rw [ofBE_toBE, ofBE_toBE, hiddenPkSize, mod_eq_of_lt (by omega), mod_eq_of_lt (by omega)] at hBytes
    rw [toNat_nextRowId_seedCounters hLast hv hHidden (length_toBE ..), ofBE_toBE, hiddenPkSize,
      mod_eq_of_lt (by omega), mod_eq_of_lt (by omega)] at hRowId
    omega

end Recover

end Fresh

end TideSql.GeneratedKeys
