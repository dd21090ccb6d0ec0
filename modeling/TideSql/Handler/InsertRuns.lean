import TideSql.Handler.FreshKeys

/-!
# Inserts over whole runs

Sessions insert, update and delete, the table is reopened, and ALTER TABLE moves the counter.
-/

namespace TideSql.GeneratedKeys
open KeyCodec SortKey IndexRead AutoIncrement Dml Lib Lib.ByteOrder Lib.Bytes Lib.Snapshot Lib.Run List Function Nat

section Runs

variable {τ ι β : Type} {K : Keyed ι β} {s : State τ ι}

theorem inv_init [DecidableEq ι] (start : Option UInt64) : Inv K (init K start : State τ ι) where
  rows key v h := by
    obtain hGet | ⟨i, t, ht, -⟩ := h
    · cases hGet
    · cases ht
  passed _ _ _ _ _ h := by cases h
  disjoint _ _ _ _ _ _ := disjoint_nil_left _

theorem Inv.lift {w : Option (World τ Key (Val ι))} {s' : State τ ι} (h : Inv K s) (hStep : s.lift w = some s')
    (hRows : ∀ w', w = some w' → Rows (RowOk K s.share s.handed) w') : Inv K s' := by
  obtain ⟨w', hw, rfl⟩ := Option.map_eq_some_iff.mp hStep
  exact ⟨hRows w' hw, h.passed, h.disjoint⟩

/-- Counters that have risen, with the numbers of the sessions as they are. -/
theorem Inv.raise {share : Share} (h : Inv K s) (hCounter : s.share.autoIncVal.toNat ≤ share.autoIncVal.toNat)
    (hRowId : s.share.nextRowId.toNat ≤ share.nextRowId.toNat) (start : Option UInt64) :
    Inv K { s with share := share, start := start } where
  rows := h.rows.imp fun _ _ hOk => hOk.mono ⟨fun _ _ _ => hCounter, fun _ => hRowId, fun _ _ _ _ _ => .inl⟩
  passed a p hSole j n hn := le_trans (h.passed a p hSole j n hn) hCounter
  disjoint := h.disjoint

theorem rowOk_update {currentPk : Bytes} {old new : Row ι} (hOld : RowOk K s.share s.handed currentPk old)
    (hNumber : ∀ a p, Sole K a p → a.number new = a.number old ∨
      a.number new ≤ s.share.autoIncVal.toNat ∧ ∀ j, ∀ n ∈ s.handed j, (n : Int) ≠ a.number new) :
    RowOk K s.share s.handed (pkFromRecord K.table currentPk new) new where
  own := pkFromRecord_pkFromRecord currentPk new
  counted a p hSole := by
    obtain hSame | hFree := hNumber a p hSole
    · exact hSame ▸ hOld.counted a p hSole
    · exact hFree.1
  apart a p hSole := by
    obtain hSame | hFree := hNumber a p hSole
    · exact hSame ▸ hOld.apart a p hSole
    · exact hFree.2
  rowId hHidden := by
    rw [pkFromRecord, hHidden]
    exact hOld.rowId hHidden

theorem writeAutoIncMeta_eq (s : State τ ι) (n : UInt64) (metaWritten : Bool) :
    ∃ start, writeAutoIncMeta s n metaWritten = { s with start := start } := by
  rw [writeAutoIncMeta]
  split
  · exact ⟨_, rfl⟩
  · exact ⟨s.start, rfl⟩

theorem inv_alter (h : Inv K s) (n : UInt64) (metaWritten : Bool) :
    Inv K (commitApplyRuntimeConfig s n metaWritten) := by
  rw [commitApplyRuntimeConfig]
  split
  · obtain ⟨start, hStart⟩ := writeAutoIncMeta_eq { s with
      share := if n - 1 > s.share.autoIncVal then { s.share with autoIncVal := n - 1 } else s.share } n metaWritten
    rw [hStart]
    refine h.raise ?_ ?_ start
    · split
      · rename_i hAbove
        exact le_of_lt (UInt64.lt_iff_toNat_lt.mp hAbove)
      · exact le_refl _
    · split <;> exact le_refl _
  · exact h

theorem inv_reset (h : Inv K s) {value : UInt64} (hCounter : s.share.autoIncVal.toNat < value.toNat)
    (hRowId : s.share.nextRowId.toNat ≤ value.toNat) (metaWritten : Bool) :
    Inv K (resetAutoIncrement s value metaWritten) := by
  have hPos : value > 0 := UInt64.lt_iff_toNat_lt.mpr (by rw [UInt64.toNat_zero]; omega)
  have hOne : (value - 1).toNat = value.toNat - 1 := UInt64.toNat_sub_of_le _ _ (UInt64.le_iff_toNat_le.mpr (by
    rw [UInt64.toNat_one]; omega))
  rw [resetAutoIncrement, if_pos hPos, if_pos hPos]
  obtain ⟨start, hStart⟩ := writeAutoIncMeta_eq { s with share := ⟨value - 1, value⟩ } value metaWritten
  rw [hStart]
  refine h.raise ?_ hRowId start
  rw [hOne]
  omega

theorem inv_restart [DecidableEq ι] (hLaw : ∀ a p, Sole K a p → Lawful K a p)
    (hAsc : ∀ a p, Sole K a p → p.desc = false)
    (h : Inv K s) : Inv K (⟨{ s.world with active := fun _ => none }, recoverCounters K s.world.committed s.start,
      fun _ => [], s.start⟩ : State τ ι) where
  rows key v hHolds := by
    obtain hGet | ⟨i, t, ht, -⟩ := hHolds
    · obtain ⟨pk, r, rfl, rfl, hOk⟩ := h.rows key v (.inl hGet)
      exact ⟨pk, r, rfl, rfl, rowOk_recoverCounters hLaw hAsc h.rows hGet hOk⟩
    · cases ht
  passed _ _ _ _ _ h := by cases h
  disjoint _ _ _ _ _ _ := disjoint_nil_left _

variable [DecidableEq τ]

/-- A session is handed numbers above the counter, which goes past them. -/
theorem Inv.take {i : τ} (req : Request ι) {share : Share} {ns : List Nat} (h : Inv K s)
    (hFits : ∀ a p, Sole K a p → s.share.autoIncVal.toNat + desired req.reserves < 2 ^ 64)
    (hCounter : ∀ a p, Sole K a p → (reserve s.share req.reserves).autoIncVal.toNat ≤ share.autoIncVal.toNat)
    (hRowId : K.table.pkParts = none → s.share.nextRowId.toNat ≤ share.nextRowId.toNat)
    (hSub : ns ⊆ handedTo K s i req) : Inv K { s with share := share, handed := update s.handed i ns } := by
  have hLe : ∀ a p, Sole K a p → s.share.autoIncVal.toNat ≤ share.autoIncVal.toNat := fun a p hSole => by
    have hReserved := (reserve_spec (hFits a p hSole)).1
    have hAbove := hCounter a p hSole
    omega
  have hMem : ∀ a p, Sole K a p → ∀ j, ∀ n ∈ update s.handed i ns j, n ∈ s.handed j ∨
      s.share.autoIncVal.toNat < n ∧ n ≤ share.autoIncVal.toNat := fun a p hSole j n hn => by
    obtain rfl | hNe := eq_or_ne j i
    · rw [update_self] at hn
      exact (mem_handedTo (hFits a p hSole) (hSub hn)).imp_right fun hNew =>
        ⟨hNew.1, le_trans hNew.2 (hCounter a p hSole)⟩
    · rw [update_of_ne hNe] at hn
      exact .inl hn
  have hRest : ∀ a p, Sole K a p → ∀ j, j ≠ i → ∀ n ∈ update s.handed i ns j, n ≤ s.share.autoIncVal.toNat := by
    intro a p hSole j hNe n hn
    rw [update_of_ne hNe] at hn
    exact h.passed a p hSole j n hn
  refine ⟨h.rows.imp fun _ _ hOk => hOk.mono ⟨hLe, hRowId, fun a p hSole j n hn => ?_⟩, fun a p hSole j n hn => ?_,
    fun a p hSole j k hNe n hj hk => ?_⟩
  · exact (hMem a p hSole j n hn).imp_right And.left
  · obtain hOld | hNew := hMem a p hSole j n hn
    · exact le_trans (h.passed a p hSole j n hOld) (hLe a p hSole)
    · exact hNew.2
  · -- one of the two sessions has been handed nothing
    have hLow : n ≤ s.share.autoIncVal.toNat := by
      obtain rfl | hj' := eq_or_ne j i
      · exact hRest a p hSole k hNe.symm n hk
      · exact hRest a p hSole j hj' n hj
    have hOld : ∀ j, n ∈ update s.handed i ns j → n ∈ s.handed j := fun j hn =>
      (hMem a p hSole j n hn).resolve_right fun hNew => absurd hLow (not_le.mpr hNew.1)
    exact h.disjoint a p hSole j k hNe (hOld j hj) (hOld k hk)

theorem Inv.quiet {a : Dml.Action τ ι} {s' : State τ ι} (h : Inv K s)
    (hStep : s.lift (Dml.step K.table s.world a) = some s')
    (hQuiet : ∀ i ses c, a = .row i ses c → newRow K.table c = none) : Inv K s' := by
  refine h.lift hStep fun w' hw => h.rows.step hw fun i ses c t ops pk r ha _ _ hRow => ?_
  rw [hQuiet i ses c ha] at hRow
  cases hRow

omit [DecidableEq τ] in
theorem accepts_of_ok {w : World τ Key (Val ι)} {i : τ} {ses : Session} {c : Call ι} {t : Txn Key (Val ι)}
    {ops : List (Op Key (Val ι))} (ht : w.active i = some t) (hOk : rowCall K.table ses t.view c = .ok ops) :
    accepts K w i ses c = true := by
  simp only [accepts, ht, hOk, Except.toBool]

omit [DecidableEq τ] in
theorem unused_subset (ns : List Nat) (c : Call ι) : unused K ns c ⊆ ns := by
  cases c with
  | write gen rowId buf =>
    rw [unused]
    split
    · exact Subset.refl _
    · exact filter_subset_self _
  | update currentPk old new ws | delete currentPk buf => exact Subset.refl _

variable [DecidableEq ι]

theorem rowOk_write (hLaw : ∀ a p, Sole K a p → Lawful K a p) (h : Inv K s) {i : τ} {req : Request ι}
    (hFree : ∀ a p, Sole K a p → InsertFree K a s i req) {share : Share} {gen : Bool} {buf : Row ι}
    (hWritten : Written K s req share gen buf)
    (hRowId : K.table.pkParts = none → s.share.nextRowId.toNat < share.nextRowId.toNat) :
    RowOk K share (update s.handed i (unused K (handedTo K s i req) (.write gen s.share.nextRowId.toNat buf)))
      (writeBuildPk K.table s.share.nextRowId.toNat buf) buf where
  own := writeBuildPk_own _ buf
  counted a p hSole := by
    rw [hWritten.counter a p hSole]
    exact (le_ulonglong ((hLaw a p hSole).bound _)).trans (Int.ofNat_le.mpr (le_bumpTo ..).2)
  apart a p hSole j n hn := by
    have hRow := hWritten.filled a hSole.1
    obtain rfl | hNe := eq_or_ne j i
    · simp only [update_self, unused, hSole.1] at hn
      exact of_decide_eq_true (mem_filter.mp hn).2
    · rw [update_of_ne hNe] at hn
      by_cases hZero : a.number req.buf = 0
      · obtain ⟨m, hm, hNumber⟩ := (hFree a p hSole).generated hZero buf hRow
        intro hEq
        obtain rfl : n = m := Int.ofNat_inj.mp (hEq.trans hNumber)
        obtain hOld | hNew := mem_handedTo (hFree a p hSole).fits hm
        · exact h.disjoint a p hSole j i hNe hn hOld
        · exact absurd (h.passed a p hSole j n hn) (not_le.mpr hNew.1)
      · exact (hFree a p hSole).explicit hZero buf hRow j hNe n hn
  rowId hHidden := by
    refine ⟨s.share.nextRowId.toNat, ?_, hRowId hHidden⟩
    rw [writeBuildPk, pkFromRecord, hHidden]

theorem inv_insert (hLaw : ∀ a p, Sole K a p → Lawful K a p) (h : Inv K s) {i : τ} {req : Request ι} {s' : State τ ι}
    (hGuard : Guard K s (.insert i req)) (hStep : step K s (.insert i req) = some s') : Inv K s' := by
  obtain ⟨-, -, hFits, -, hFree⟩ := hGuard
  have hTake : ∀ {share ns}, _ → _ → _ → Inv K { s with share := share, handed := update s.handed i ns } :=
    h.take req fun a p hSole => (hFree a p hSole).fits
  simp only [step] at hStep
  cases hCall : (prepareWrite K s.share req).1 with
  | none =>
    rw [hCall] at hStep
    cases hStep
    rw [prepareWrite_none hCall]
    exact hTake (fun _ _ _ => le_refl _) (fun _ => le_of_eq (congrArg _ (nextRowId_reserve ..).symm))
      (Subset.refl _)
  | some c =>
    rw [hCall] at hStep
    obtain ⟨gen, buf, rfl, hWritten, hRowId⟩ := prepareWrite_some hCall
    have hLt := fun hHidden => hRowId hHidden (hFits hHidden)
    have hCounter : ∀ a p, Sole K a p → (reserve s.share req.reserves).autoIncVal.toNat ≤
        (prepareWrite K s.share req).2.autoIncVal.toNat := fun a p hSole => by
      rw [hWritten.counter a p hSole]
      exact (le_bumpTo ..).1
    dsimp only at hStep
    split at hStep
    · have hLeft := unused_subset (K := K) (handedTo K s i req) (.write gen s.share.nextRowId.toNat buf)
      have hInv := hTake hCounter (fun hHidden => le_of_lt (hLt hHidden)) hLeft
      refine hInv.lift hStep fun w' hw => hInv.rows.step hw fun j ses d t ops pk r hEq _ _ hRow => ?_
      cases hEq
      cases hRow
      exact rowOk_write hLaw h hFree hWritten hLt
    · rename_i hRefused
      have hInv := hTake hCounter (fun hHidden => le_of_lt (hLt hHidden)) (Subset.refl _)
      refine hInv.lift hStep fun w' hw => hInv.rows.step hw fun j ses d t ops pk r hEq ht hOk _ => ?_
      cases hEq
      exact absurd (accepts_of_ok ht hOk) hRefused

theorem inv_step (hLaw : ∀ a p, Sole K a p → Lawful K a p) {a : Action τ ι} {s' : State τ ι} (h : Inv K s)
    (hGuard : Guard K s a) (hStep : step K s a = some s') : Inv K s' := by
  cases a with
  | insert i req => exact inv_insert hLaw h hGuard hStep
  | update i ses currentPk old new ws =>
    obtain ⟨hPositioned, hNumber⟩ := hGuard
    refine h.lift hStep fun w' hw => h.rows.step hw fun j ses' c t ops pk r hEq ht _ hRow => ?_
    cases hEq
    cases hRow
    obtain ⟨r, hr, hOk⟩ := h.rows.of_view ht (hPositioned t ht)
    cases hr
    exact rowOk_update hOk hNumber
  | delete i ses currentPk buf =>
    refine h.quiet hStep fun j ses' c hEq => ?_
    cases hEq
    rfl
  | start i | undo i n | commit i | abort i => exact h.quiet hStep fun j ses c hEq => by cases hEq
  | release i =>
    cases hStep
    exact h.take ⟨⟨false, false⟩, fun _ => none, [], .kept⟩ (fun _ _ _ => s.share.autoIncVal.toNat_lt)
      (fun _ _ _ => le_refl _) (fun _ => le_refl _) (nil_subset _)
  | restart f =>
    obtain ⟨rfl, hAsc⟩ := hGuard
    cases hStep
    exact inv_restart hLaw hAsc h
  | alter n metaWritten =>
    cases hStep
    exact inv_alter h n metaWritten
  | resetAutoIncrement value metaWritten =>
    cases hStep
    exact inv_reset h hGuard.1 hGuard.2 metaWritten

def Replaces (K : Keyed ι β) (s : State τ ι) (i : τ) (req : Request ι) : Prop :=
  ∃ c t ops pk r, (prepareWrite K s.share req).1 = some c ∧ s.world.active i = some t ∧
    rowCall K.table req.session t.view c = .ok ops ∧ newRow K.table c = some (pk, r) ∧ t.view.get (dataKey pk) ≠ none

omit [DecidableEq τ] in
theorem not_replaces (hLaw : ∀ a p, Sole K a p → Lawful K a p) (h : Inv K s) {i : τ} {req : Request ι}
    (hGuard : Guard K s (.insert i req)) : ¬ Replaces K s i req := by
  rintro ⟨c, t, ops, pk, r, hc, ht, hOk, hRow, hSome⟩
  obtain ⟨gen, buf, rfl, hWritten, -⟩ := prepareWrite_some hc
  obtain ⟨hSkip, hReplace, -, hAlone, hFree⟩ := hGuard
  cases hRow
  obtain ⟨v, hv⟩ := Option.ne_none_iff_exists'.mp hSome
  obtain ⟨r', rfl, hStored⟩ := h.rows.of_view ht hv
  cases hHidden : K.table.pkParts with
  | none =>
    obtain ⟨n, hPk, hn⟩ := hStored.rowId hHidden
    rw [writeBuildPk, pkFromRecord, hHidden] at hPk
    have hEq := congrArg ofBE hPk
    have hBound := s.share.nextRowId.toNat_lt
    rw [ofBE_toBE, ofBE_toBE, hiddenPkSize, mod_eq_of_lt (by omega), mod_eq_of_lt (by omega)] at hEq
    omega
  | some parts =>
    cases gen with
    | false =>
      refine hSome (fresh_of_writeCheckPkUnique ?_ ⟨?_, hSkip, rfl⟩ (writeRow_ok hOk).1)
      · rw [hReplace, Bool.false_and]
      · rw [hHidden, Option.isSome_some]
    | true =>
      obtain ⟨a, hAuto, hZero, p, hParts⟩ := hWritten.gen rfl
      have hSole := hAlone a p hAuto hParts hZero
      obtain ⟨n, hn, hNumber⟩ := (hFree a p hSole).generated hZero r (hWritten.filled a hAuto)
      have hSame : a.number r' = a.number r :=
        number_eq_of_key (hLaw a p hSole) hSole (hStored.own.trans (writeBuildPk_own _ r).symm)
      obtain hMine | hAbove := mem_handedTo (hFree a p hSole).fits hn
      · exact hStored.apart a p hSole i n hMine (hNumber.symm.trans hSame.symm)
      · have hCounted := hStored.counted a p hSole
        omega

/-- In a run whose calls are all guarded no insert replaces a row. -/
theorem insert_never_replaces {start : Option UInt64} (hLaw : ∀ a p, Sole K a p → Lawful K a p)
    (h : Reach (step K) (Guard K) (init K start) s) {i : τ} {req : Request ι} (hGuard : Guard K s (.insert i req)) :
    ¬ Replaces K s i req := by
  refine not_replaces hLaw (h.invariant (Inv K) (inv_init start) ?_) hGuard
  exact fun _ _ _ hInv hGuarded hStep => inv_step hLaw hInv hGuarded hStep

end Runs

section Samples

def tinyAuto : AutoColumn Column := ⟨(tinyPart .n).field, fun b => (b.headD 0).toNat⟩

def keyedBySide : Keyed Column Unit := ⟨places, some tinyAuto⟩

def single : Variables := ⟨1, 1, Nat.one_pos⟩

/-- A row without a number, for which the server stores the one it is handed. -/
def numberless (x n : UInt8) : Request Column := ⟨checked, place x 0, [(1, single)], .stored [n]⟩

def ending (K : Keyed Column Unit) (acts : List (Action Unit Column)) : State Unit Column :=
  (run (step K) (init K none) acts).getD (init K none)

def inserted : List (Action Unit Column) := [.start (), .insert () (numberless 1 1), .commit (), .start ()]

def keyedByNumber : Keyed Column Unit := ⟨{ places with pkParts := some [tinyPart .n], indexes := [] }, some tinyAuto⟩

def forced : Request Column := ⟨checked, place 1 0, [], .stored [1]⟩

/-- The number is generated, the key is not, and it is not looked up. Nor is a number the server stores without asking
for it, or one that is handed out again because the counter was not recovered. -/
theorem insert_replaces_side :
    (run (step keyedBySide) (init keyedBySide none) inserted = some (ending keyedBySide inserted) ∧
      Replaces keyedBySide (ending keyedBySide inserted) () (numberless 1 2)) ∧
    (run (step keyedByNumber) (init keyedByNumber none) inserted = some (ending keyedByNumber inserted) ∧
      Replaces keyedByNumber (ending keyedByNumber inserted) () forced) ∧
    run (step keyedByNumber) (init keyedByNumber none)
        (inserted ++ [.restart { Reads.allOk with iterKey := false }, .start ()]) =
      some (ending keyedByNumber (inserted ++ [.restart { Reads.allOk with iterKey := false }, .start ()])) ∧
      Replaces keyedByNumber (ending keyedByNumber
        (inserted ++ [.restart { Reads.allOk with iterKey := false }, .start ()])) () (numberless 1 1) := by
  refine ⟨⟨rfl, _, _, _, _, _, rfl, rfl, rfl, rfl, ?_⟩, ⟨rfl, _, _, _, _, _, rfl, rfl, rfl, rfl, ?_⟩,
    rfl, _, _, _, _, _, rfl, rfl, rfl, rfl, ?_⟩
  all_goals exact fun hNone => by cases hNone

theorem sole_keyedByNumber {a : AutoColumn Column} {p : KeyPart Column} (h : Sole keyedByNumber a p) :
    a = tinyAuto ∧ p = tinyPart .n := by
  obtain ⟨ha, hp, -⟩ := h
  cases ha
  cases hp
  exact ⟨rfl, rfl⟩

theorem lawful_keyedByNumber {a : AutoColumn Column} {p : KeyPart Column} (h : Sole keyedByNumber a p) :
    Lawful keyedByNumber a p := by
  obtain ⟨rfl, rfl⟩ := sole_keyedByNumber h
  have hSort : ∀ b : Bytes,
      keyedByNumber.table.sorts.write (tinyPart .n).field (tinyPart .n).length b = [b.headD 0] := by
    intro b
    cases b <;> rfl
  refine ⟨rfl, fun b => ?_, fun b b' => ?_⟩
  · have hByte := (b.headD 0).toNat_lt
    simp only [tinyAuto]
    omega
  · rw [hSort, hSort, ← not_lt, cons_lt_cons_iff]
    simp only [tinyAuto, not_lt_nil, and_false, or_false, not_lt, Int.ofNat_le, UInt8.le_iff_toNat_le]

theorem guard_numberless {s : State Unit Column} {n : UInt8} (hCounter : s.share.autoIncVal.toNat < 9)
    (hHanded : n.toNat ∈ handedTo keyedByNumber s () (numberless 1 n)) :
    Guard keyedByNumber s (.insert () (numberless 1 n)) := by
  refine ⟨rfl, rfl, fun h => (by cases h), fun a p ha hp _ => ⟨ha, hp, ?_⟩, fun a p hSole => ?_⟩
  · cases ha
    cases hp
    rfl
  · obtain ⟨rfl, -⟩ := sole_keyedByNumber hSole
    refine ⟨?_, fun _ buf hRow => ?_, fun hNonzero => absurd rfl hNonzero⟩
    · have hOne : desired (numberless 1 n).reserves = 1 := rfl
      omega
    · cases hRow
      exact ⟨n.toNat, hHanded, rfl⟩

def reopened : List (Action Unit Column) :=
  [.start (), .insert () (numberless 1 1), .insert () (numberless 1 2), .commit (), .restart .allOk, .start ()]

theorem insert_never_replaces_third :
    Guard keyedByNumber (ending keyedByNumber reopened) (.insert () (numberless 1 3)) ∧
      ¬ Replaces keyedByNumber (ending keyedByNumber reopened) () (numberless 1 3) := by
  have h₁ : Reach (step keyedByNumber) (Guard keyedByNumber) (init keyedByNumber none)
      (ending keyedByNumber (reopened.take 1)) := .step (.start ()) .init trivial rfl
  have h₂ : Reach (step keyedByNumber) (Guard keyedByNumber) (init keyedByNumber none)
      (ending keyedByNumber (reopened.take 2)) :=
    h₁.step (.insert () (numberless 1 1)) (guard_numberless (by decide) (by decide)) rfl
  have h₃ : Reach (step keyedByNumber) (Guard keyedByNumber) (init keyedByNumber none)
      (ending keyedByNumber (reopened.take 4)) :=
    (h₂.step (.insert () (numberless 1 2)) (guard_numberless (by decide) (by decide)) rfl).step (.commit ()) trivial rfl
  have hReopen : Guard keyedByNumber (ending keyedByNumber (reopened.take 4)) (.restart .allOk) := by
    refine ⟨rfl, fun a p hSole => ?_⟩
    obtain ⟨-, rfl⟩ := sole_keyedByNumber hSole
    rfl
  have hReach : Reach (step keyedByNumber) (Guard keyedByNumber) (init keyedByNumber none)
      (ending keyedByNumber reopened) := (h₃.step (.restart .allOk) hReopen rfl).step (.start ()) trivial rfl
  have hGuard : Guard keyedByNumber (ending keyedByNumber reopened) (.insert () (numberless 1 3)) :=
    guard_numberless (by decide) (by decide)
  exact ⟨hGuard, insert_never_replaces (fun _ _ => lawful_keyedByNumber) hReach hGuard⟩

end Samples

end TideSql.GeneratedKeys
