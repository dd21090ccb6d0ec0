import Mathlib
import TideSql.Handler.XaCalls

/-!
# The tables an XA transaction has written

A connection lists the tables its transaction writes to, once for each handler and generation, and starts the
list anew when the generation has changed.
-/

namespace TideSql.ModTables
open XaCalls (TableName)
open Lib.Run List Function

inductive Held where
  | put (table : TableName)
  | delta (table : TableName)
  deriving DecidableEq

def Held.table : Held → TableName
  | .put table | .delta table => table

def Held.isDelta : Held → Bool
  | .put _ => false
  | .delta _ => true

structure Trx where
  active : Bool
  raised : Nat
  modTables : List TableName
  modTablesGeneration : UInt64
  held : List Held
  stmt : Option Nat
  savepoints : List (Nat × Nat)

def Trx.txnGeneration (trx : Trx) : UInt64 := UInt64.ofNat trx.raised

def Trx.fresh : Trx := ⟨false, 0, [], 0, [], none, []⟩

structure Prepared where
  batch : List TableName
  preparedModTables : List TableName

structure State (χ η : Type) where
  trx : χ → Trx
  /-- `mod_table_noted_generation_`. -/
  noted : η → UInt64
  notedIn : η → Option (χ × Nat)
  calledOn : η → Option χ
  prepared : List Prepared

inductive Action (χ η : Type) where
  | start (c : χ)
  | lock (c : χ)
  | note (c : χ) (h : η)
  | write (c : χ) (h : η) (isDelta : Bool)
  | stmtCommit (c : χ)
  | stmtRollback (c : χ)
  | savepointSet (c : χ) (slot : Nat)
  | savepointRollback (c : χ) (slot : Nat)
  | bulkCommit (c : χ)
  | finish (c : χ)
  | xaPrepare (c : χ)

section Model

def Trx.raise (trx : Trx) : Trx := { trx with raised := trx.raised + 1 }

def Trx.emptied (trx : Trx) : Trx := { trx with held := [], stmt := none, savepoints := [] }.raise

def listTable (name : TableName) (tables : List TableName) : List TableName :=
  if name.1 = "" ∨ name.2 = "" then tables
  else if tables.any fun noted => noted = name then tables
  else tables ++ [name]

def noteModifiedTable (name : TableName) (noted : UInt64) (trx : Trx) : Trx :=
  if noted = trx.txnGeneration then trx
  else if trx.modTablesGeneration ≠ trx.txnGeneration then
    { trx with modTables := listTable name [], modTablesGeneration := trx.txnGeneration }
  else { trx with modTables := listTable name trx.modTables }

def undoPuts (n : Nat) (held : List Held) : List Held :=
  (held.take (held.length - n)).filter Held.isDelta ++ held.drop (held.length - n)

variable {χ η : Type} [DecidableEq χ] [DecidableEq η] (tableOf : η → TableName)

def State.set (s : State χ η) (c : χ) (trx : Trx) : State χ η := { s with trx := update s.trx c trx }

/-- The calls that the server makes for a transaction only once the engine takes part in it are refused before. -/
def step (s : State χ η) : Action χ η → Option (State χ η)
  | .start c =>
    if (s.trx c).active then some s else some (s.set c { (s.trx c).emptied with active := true })
  | .lock c =>
    if (s.trx c).active ∧ (s.trx c).stmt = none then some (s.set c { s.trx c with stmt := some (s.trx c).held.length })
    else some s
  | .note c h =>
    some { s with
      trx := update s.trx c (noteModifiedTable (tableOf h) (s.noted h) (s.trx c))
      noted := update s.noted h (s.trx c).txnGeneration
      notedIn := if s.noted h = (s.trx c).txnGeneration then s.notedIn
        else update s.notedIn h (some (c, (s.trx c).raised))
      calledOn := update s.calledOn h (some c) }
  | .write c h isDelta =>
    if (s.trx c).active then
      some (s.set c { s.trx c with
        held := (if isDelta then .delta (tableOf h) else .put (tableOf h)) :: (s.trx c).held })
    else none
  | .stmtCommit c => some (s.set c { s.trx c with stmt := none })
  | .stmtRollback c =>
    if (s.trx c).active then
      match (s.trx c).stmt with
      | some n =>
        some (s.set c { s.trx c with held := (s.trx c).held.drop ((s.trx c).held.length - n), stmt := none }.raise)
      | none => some (s.set c { (s.trx c).emptied with active := false })
    else none
  | .savepointSet c slot =>
    if (s.trx c).active then
      some (s.set c { s.trx c with savepoints := (slot, (s.trx c).held.length) :: (s.trx c).savepoints })
    else none
  | .savepointRollback c slot =>
    match (s.trx c).savepoints.dropWhile fun e => e.1 ≠ slot with
    -- neither the generation nor the list changes
    | (_, n) :: older =>
      some (s.set c { s.trx c with held := undoPuts n (s.trx c).held, savepoints := (slot, n) :: older })
    | [] => none
  | .bulkCommit c => if (s.trx c).active then some (s.set c (s.trx c).emptied) else none
  | .finish c => if (s.trx c).active then some (s.set c { (s.trx c).emptied with active := false }) else none
  | .xaPrepare c =>
    if (s.trx c).active then
      some { s with
        trx := update s.trx c { (s.trx c).emptied with active := false, modTables := [] }
        prepared := ⟨(s.trx c).held.map Held.table, (s.trx c).modTables⟩ :: s.prepared }
    else none

def init : State χ η := ⟨fun _ => .fresh, fun _ => UInt64.ofNat (2 ^ 64 - 1), fun _ => none, fun _ => none, []⟩

/-- A row call comes to `note_modified_table` before it writes. -/
def Contract (s : State χ η) : Action χ η → Prop
  | .write c h _ => s.calledOn h = some c
  | _ => True

/-- A row call writes in the generation its handler has noted the table in, and a list is started anew only with
nothing held for another table. -/
def Condition (s : State χ η) : Action χ η → Prop
  | .note c h => s.noted h ≠ (s.trx c).txnGeneration → (s.trx c).modTablesGeneration ≠ (s.trx c).txnGeneration →
    ∀ x ∈ (s.trx c).held, x.table = tableOf h
  | .write c h _ => s.notedIn h = some (c, (s.trx c).raised)
  | _ => True

def Covered (s : State χ η) : Prop := ∀ p ∈ s.prepared, ∀ table ∈ p.batch, table ∈ p.preparedModTables

end Model

section Lists

theorem subset_listTable (name : TableName) (tables : List TableName) : tables ⊆ listTable name tables := by
  rw [listTable]
  split
  · exact Subset.refl _
  · split
    · exact Subset.refl _
    · exact subset_append_left _ _

theorem mem_listTable {name : TableName} (hNamed : name.1 ≠ "" ∧ name.2 ≠ "") (tables : List TableName) :
    name ∈ listTable name tables := by
  rw [listTable, if_neg (not_or.mpr hNamed)]
  split
  · rename_i hAny
    obtain ⟨noted, hMem, hEq⟩ := any_eq_true.mp hAny
    rwa [← of_decide_eq_true hEq]
  · exact mem_append_right _ (mem_singleton_self name)

theorem mem_of_mem_undoPuts {n : Nat} {held : List Held} {x : Held} (h : x ∈ undoPuts n held) : x ∈ held := by
  obtain h | h := mem_append.mp h
  · exact mem_of_mem_take (mem_filter.mp h).1
  · exact mem_of_mem_drop h

end Lists

section Invariant

variable {χ η : Type} {tableOf : η → TableName}

structure Inv (tableOf : η → TableName) (s : State χ η) : Prop where
  held {c : χ} {x : Held} : x ∈ (s.trx c).held → x.table ∈ (s.trx c).modTables
  past {h : η} {c : χ} {n : Nat} : s.notedIn h = some (c, n) → n ≤ (s.trx c).raised
  noted {h : η} {c : χ} : s.notedIn h = some (c, (s.trx c).raised) →
    tableOf h ∈ (s.trx c).modTables ∧ (s.trx c).modTablesGeneration = (s.trx c).txnGeneration
  covered : Covered s

theorem inv_init : Inv tableOf (init : State χ η) where
  held h := by cases h
  past h := by cases h
  noted h := by cases h
  covered _ h := by cases h

variable [DecidableEq χ] {s s' : State χ η}

theorem Inv.set (h : Inv tableOf s) {c : χ} {trx : Trx} (hTrx : s'.trx = update s.trx c trx)
    (hNoted : s'.notedIn = s.notedIn) (hCovered : Covered s') (hHeld : ∀ x ∈ trx.held, x.table ∈ trx.modTables)
    (hRaised : trx.raised = (s.trx c).raised ∧ trx.modTables = (s.trx c).modTables ∧
      trx.modTablesGeneration = (s.trx c).modTablesGeneration ∨ (s.trx c).raised < trx.raised) : Inv tableOf s' := by
  refine ⟨fun {c' x} hx => ?_, fun {k c' n} hk => ?_, fun {k c'} hk => ?_, hCovered⟩
  · rw [hTrx] at hx ⊢
    obtain rfl | hNe := eq_or_ne c' c
    · rw [update_self] at hx ⊢
      exact hHeld x hx
    · rw [update_of_ne hNe] at hx ⊢
      exact h.held hx
  · rw [hNoted] at hk
    rw [hTrx]
    obtain rfl | hNe := eq_or_ne c' c
    · rw [update_self]
      have hPast := h.past hk
      omega
    · rw [update_of_ne hNe]
      exact h.past hk
  · rw [hNoted] at hk
    rw [hTrx] at hk ⊢
    obtain rfl | hNe := eq_or_ne c' c
    · rw [update_self] at hk ⊢
      obtain ⟨hSame, hList, hGeneration⟩ | hLater := hRaised
      · rw [hSame] at hk
        have hNow := h.noted hk
        rw [hList, hGeneration, Trx.txnGeneration, hSame]
        exact hNow
      · exact absurd (h.past hk) (Nat.not_le.mpr hLater)
    · rw [update_of_ne hNe] at hk ⊢
      exact h.noted hk

theorem Inv.empty (h : Inv tableOf s) {c : χ} {trx : Trx} (hHeld : trx.held = [])
    (hRaised : trx.raised = (s.trx c).raised + 1) : Inv tableOf (s.set c trx) := by
  refine h.set rfl rfl h.covered (fun x hx => ?_) (.inr (by omega))
  rw [hHeld] at hx
  cases hx

theorem Inv.less (h : Inv tableOf s) {c : χ} {trx : Trx} (hHeld : trx.held ⊆ (s.trx c).held)
    (hList : trx.modTables = (s.trx c).modTables)
    (hRaised : trx.raised = (s.trx c).raised ∧ trx.modTablesGeneration = (s.trx c).modTablesGeneration ∨
      (s.trx c).raised < trx.raised) : Inv tableOf (s.set c trx) := by
  refine h.set rfl rfl h.covered (fun x hx => ?_) (hRaised.imp_left fun hSame => ⟨hSame.1, hList, hSame.2⟩)
  rw [hList]
  exact h.held (hHeld hx)

theorem noteModifiedTable_spec (name : TableName) (noted : UInt64) (trx : Trx)
    (hNamed : name.1 ≠ "" ∧ name.2 ≠ "") (hOther : noted ≠ trx.txnGeneration) :
    (noteModifiedTable name noted trx).held = trx.held ∧ (noteModifiedTable name noted trx).raised = trx.raised ∧
      (noteModifiedTable name noted trx).modTablesGeneration = trx.txnGeneration ∧
      name ∈ (noteModifiedTable name noted trx).modTables ∧
      (trx.modTablesGeneration = trx.txnGeneration → trx.modTables ⊆ (noteModifiedTable name noted trx).modTables) := by
  rw [noteModifiedTable, if_neg hOther]
  split
  · rename_i hAnew
    exact ⟨rfl, rfl, rfl, mem_listTable hNamed _, fun hSame => absurd hSame hAnew⟩
  · rename_i hSame
    exact ⟨rfl, rfl, not_not.mp hSame, mem_listTable hNamed _, fun _ => subset_listTable name _⟩

variable [DecidableEq η]

theorem Inv.note (h : Inv tableOf s) {c : χ} {k : η} (hNamed : (tableOf k).1 ≠ "" ∧ (tableOf k).2 ≠ "")
    (hCondition : Condition tableOf s (.note c k)) (hStep : step tableOf s (.note c k) = some s') : Inv tableOf s' := by
  rw [step, Option.some.injEq] at hStep
  subst hStep
  by_cases hSame : s.noted k = (s.trx c).txnGeneration
  · have hTrx : update s.trx c (noteModifiedTable (tableOf k) (s.noted k) (s.trx c)) = s.trx := by
      rw [noteModifiedTable, if_pos hSame, update_eq_self]
    rw [hTrx, if_pos hSame]
    exact ⟨h.held, h.past, h.noted, h.covered⟩
  · obtain ⟨hHeld, hRaised, hGeneration, hMem, hKept⟩ :=
      noteModifiedTable_spec (tableOf k) (s.noted k) (s.trx c) hNamed hSame
    rw [if_neg hSame]
    generalize noteModifiedTable (tableOf k) (s.noted k) (s.trx c) = trx at *
    have hGen : trx.txnGeneration = (s.trx c).txnGeneration := by rw [Trx.txnGeneration, hRaised, Trx.txnGeneration]
    refine ⟨fun {c' x} hx => ?_, fun {k' c' n} hk => ?_, fun {k' c'} hk => ?_, h.covered⟩
    · dsimp only at hx ⊢
      obtain rfl | hNe := eq_or_ne c' c
      · rw [update_self] at hx ⊢
        rw [hHeld] at hx
        by_cases hList : (s.trx c').modTablesGeneration = (s.trx c').txnGeneration
        · exact hKept hList (h.held hx)
        · rw [hCondition hSame hList x hx]
          exact hMem
      · rw [update_of_ne hNe] at hx ⊢
        exact h.held hx
    · dsimp only at hk ⊢
      have hPast : n ≤ (s.trx c').raised := by
        rw [update_apply] at hk
        split at hk
        · cases hk
          exact Nat.le_refl _
        · exact h.past hk
      obtain rfl | hNe := eq_or_ne c' c
      · rwa [update_self, hRaised]
      · rwa [update_of_ne hNe]
    · dsimp only at hk ⊢
      obtain rfl | hNe := eq_or_ne c' c
      · rw [update_self] at hk ⊢
        rw [hRaised] at hk
        rw [hGeneration, hGen]
        obtain rfl | hOther := eq_or_ne k' k
        · exact ⟨hMem, rfl⟩
        · rw [update_of_ne hOther] at hk
          obtain ⟨hListed, hList⟩ := h.noted hk
          exact ⟨hKept hList hListed, rfl⟩
      · rw [update_of_ne hNe] at hk ⊢
        obtain rfl | hOther := eq_or_ne k' k
        · rw [update_self] at hk
          exact absurd (congrArg Prod.fst (Option.some.inj hk)).symm hNe
        · rw [update_of_ne hOther] at hk
          exact h.noted hk

theorem Inv.step (h : Inv tableOf s) (hNamed : ∀ k, (tableOf k).1 ≠ "" ∧ (tableOf k).2 ≠ "") {a : Action χ η}
    (hCondition : Condition tableOf s a) (hStep : step tableOf s a = some s') :
    Inv tableOf s' := by
  cases a with
  | start c =>
    rw [ModTables.step] at hStep
    split at hStep
    · cases hStep
      exact h
    · cases hStep
      exact h.empty rfl rfl
  | lock c =>
    rw [ModTables.step] at hStep
    split at hStep
    · cases hStep
      exact h.less (Subset.refl _) rfl (.inl ⟨rfl, rfl⟩)
    · cases hStep
      exact h
  | note c k => exact h.note (hNamed k) hCondition hStep
  | write c k isDelta =>
    rw [ModTables.step] at hStep
    split at hStep
    · cases hStep
      have hTable : ∀ x : Held, x = (if isDelta then .delta (tableOf k) else .put (tableOf k)) →
        x.table = tableOf k := by
        rintro x rfl
        cases isDelta with
        | true | false => rfl
      refine h.set rfl rfl h.covered (fun x hx => ?_) (.inl ⟨rfl, rfl, rfl⟩)
      obtain hx | hx := mem_cons.mp hx
      · rw [hTable x hx]
        exact (h.noted hCondition).1
      · exact h.held hx
    · cases hStep
  | stmtCommit c =>
    cases hStep
    exact h.less (Subset.refl _) rfl (.inl ⟨rfl, rfl⟩)
  | stmtRollback c =>
    rw [ModTables.step] at hStep
    split at hStep
    · split at hStep
      · cases hStep
        exact h.less (drop_subset _ _) rfl (.inr (Nat.lt_succ_self _))
      · cases hStep
        exact h.empty rfl rfl
    · cases hStep
  | savepointSet c slot =>
    rw [ModTables.step] at hStep
    split at hStep
    · cases hStep
      exact h.less (Subset.refl _) rfl (.inl ⟨rfl, rfl⟩)
    · cases hStep
  | savepointRollback c slot =>
    rw [ModTables.step] at hStep
    split at hStep
    · cases hStep
      exact h.less (fun _ hx => mem_of_mem_undoPuts hx) rfl (.inl ⟨rfl, rfl⟩)
    · cases hStep
  | bulkCommit c | finish c =>
    rw [ModTables.step] at hStep
    split at hStep
    · cases hStep
      exact h.empty rfl rfl
    · cases hStep
  | xaPrepare c =>
    rw [ModTables.step] at hStep
    split at hStep
    · cases hStep
      refine h.set rfl rfl (fun p hp table hTable => ?_) (fun x hx => by cases hx) (.inr (Nat.lt_succ_self _))
      obtain rfl | hp := mem_cons.mp hp
      · obtain ⟨x, hx, rfl⟩ := mem_map.mp hTable
        exact h.held hx
      · exact h.covered p hp table hTable
    · cases hStep

/-- The list saved at every `XA PREPARE` has all tables of the batch, in every run that meets the condition. -/
theorem saved_list_covers_batch (hNamed : ∀ k, (tableOf k).1 ≠ "" ∧ (tableOf k).2 ≠ "")
    (hReach : Reach (ModTables.step tableOf) (Condition tableOf) (init : State χ η) s) : Covered s :=
  (hReach.invariant (Inv tableOf) inv_init fun _ _ _ h hCondition hStep => h.step hNamed hCondition hStep).covered

end Invariant

section Samples

variable {χ η : Type} [DecidableEq χ]

instance instDecidableContract (s : State χ η) (a : Action χ η) : Decidable (Contract s a) :=
  match a with
  | .write c h _ => inferInstanceAs (Decidable (s.calledOn h = some c))
  | .start _ | .lock _ | .note _ _ | .stmtCommit _ | .stmtRollback _ | .savepointSet _ _ | .savepointRollback _ _
  | .bulkCommit _ | .finish _ | .xaPrepare _ => .isTrue trivial

instance instDecidableCondition (tableOf : η → TableName) (s : State χ η) (a : Action χ η) :
    Decidable (Condition tableOf s a) :=
  match a with
  | .note c h =>
    inferInstanceAs (Decidable (s.noted h ≠ (s.trx c).txnGeneration →
      (s.trx c).modTablesGeneration ≠ (s.trx c).txnGeneration → ∀ x ∈ (s.trx c).held, x.table = tableOf h))
  | .write c h _ => inferInstanceAs (Decidable (s.notedIn h = some (c, (s.trx c).raised)))
  | .start _ | .lock _ | .stmtCommit _ | .stmtRollback _ | .savepointSet _ _ | .savepointRollback _ _
  | .bulkCommit _ | .finish _ | .xaPrepare _ => .isTrue trivial

inductive Opened where
  | orders
  | lines
  deriving DecidableEq

def Opened.table : Opened → TableName
  | .orders => ("shop", "orders")
  | .lines => ("shop", "lines")

theorem Opened.named (h : Opened) : h.table.1 ≠ "" ∧ h.table.2 ≠ "" := by
  cases h <;> decide

def writeRow (h : Opened) : List (Action Unit Opened) := [.note () h, .write () h false]

def statement (h : Opened) : List (Action Unit Opened) := [.start (), .lock ()] ++ writeRow h

def steady : List (Action Unit Opened) :=
  statement .orders ++ [.bulkCommit (), .stmtCommit ()] ++ statement .lines ++ [.stmtRollback ()] ++
    statement .lines ++ [.stmtCommit (), .savepointSet () 0] ++ statement .orders ++
    [.stmtCommit (), .savepointRollback () 0] ++ statement .orders ++ [.stmtCommit (), .xaPrepare ()]

theorem steady_covered : ∃ s : State Unit Opened, Reach (step Opened.table) (Condition Opened.table) init s ∧
      s.prepared.map Prepared.batch = [[("shop", "orders"), ("shop", "lines")]] ∧ Covered s := by
  have hEnds : (guardedRun (step Opened.table) (Condition Opened.table) init steady).any
      (fun s : State Unit Opened => s.prepared.map Prepared.batch = [[("shop", "orders"), ("shop", "lines")]]) =
        true := by
    decide +kernel
  obtain ⟨s, hReach, hBatch⟩ := reach_of_any_guardedRun hEnds
  exact ⟨s, hReach, of_decide_eq_true hBatch, saved_list_covers_batch Opened.named hReach⟩

def retried : List (Action Unit Opened) :=
  statement .orders ++ [.stmtCommit ()] ++ statement .lines ++ [.stmtRollback ()] ++ statement .lines ++
    [.stmtCommit (), .xaPrepare ()]

theorem written_table_missing : ¬ ∀ s : State Unit Opened, Reach (step Opened.table) Contract init s → Covered s := by
  intro hAll
  have hEnds : (guardedRun (step Opened.table) Contract init retried).any (fun s : State Unit Opened =>
      s.prepared.any fun p => decide (("shop", "orders") ∈ p.batch) &&
        decide (("shop", "orders") ∉ p.preparedModTables)) = true := by
    decide +kernel
  obtain ⟨s, hReach, hWrong⟩ := reach_of_any_guardedRun hEnds
  obtain ⟨p, hp, hMissing⟩ := any_eq_true.mp hWrong
  rw [Bool.and_eq_true, decide_eq_true_eq, decide_eq_true_eq] at hMissing
  exact hMissing.2 (hAll s hReach p hp _ hMissing.1)

end Samples

end TideSql.ModTables
