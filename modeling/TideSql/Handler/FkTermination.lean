import TideSql.Handler.FkCascade
import Mathlib.Data.Finset.Card

/-!
# When referential actions come to an end

The actions of a constraint call `delete_row` and `update_row` of the referencing rows before the referenced row is
written, and nothing records for which rows a call is under way. With a check for that, every call comes to an end,
whatever the constraints, the statement and the rows are. Without it a call does what it would do with it, as long
as the check would find nothing to report.
-/

namespace TideSql.FkCascade
open KeyCodec SortKey Dml Lib Lib.Bounded ForeignKeys List Function

section Watched

variable {τ ι β : Type} [DecidableEq τ] [DecidableEq ι] (E : Schema τ ι β) (S : Stmt τ)

/-- The code with the check it lacks: the calls under way are handed down, and a call for a row that is among
them is refused. -/
def watched : Nat → List (τ × Bytes) → Call τ ι
  | 0, _, _, _, _, _ => none
  | n + 1, busy, op, t, h, st =>
    let key := (t, (st.handles h).currentPk)
    if busy.any fun k => decide (k = key) then some (some .rowUnderWay, st)
    else rowCall E S (watched n (key :: busy)) op t h st

/-- One call for each row, one for a row that is not there, and one that is refused. -/
def nesting (st : State τ ι) : Nat := st.rows.names.length + 2

/-- Some row is called for while a call for it is under way. -/
def Reenters (op : RowOp) (t : τ) (h : Nat) (st : State τ ι) : Prop :=
  (watched E S (nesting st) [] op t h st).map Prod.fst = some (some .rowUnderWay)

instance (op : RowOp) (t : τ) (h : Nat) (st : State τ ι) : Decidable (Reenters E S op t h st) :=
  inferInstanceAs (Decidable (_ = _))

def Finishes (op : RowOp) (t : τ) (h : Nat) (st : State τ ι) : Prop := ∃ n, run E S n op t h st ≠ none

end Watched

section Calls

variable {τ ι β : Type} [DecidableEq τ] [DecidableEq ι] {E : Schema τ ι β} {S : Stmt τ}
variable {d : FkDef τ ι} {h ct : Nat} {op : RowOp} {call call' : Call τ ι}

omit [DecidableEq τ] in
theorem setFields_kept (d : FkDef τ ι) (h ct : Nat) (src : Handle ι → Row ι) (st : State τ ι) :
    (setFields E d h ct src st).rows = st.rows ∧
      ((setFields E d h ct src st).handles ct).currentPk = (st.handles ct).currentPk := by
  rw [setFields]
  generalize (fkParts E d.toFkSpec d.childKeyNo).zip d.refColumns = l
  induction l generalizing st with
  | nil => exact ⟨rfl, rfl⟩
  | cons x l ih =>
    rw [foldl_cons]
    obtain ⟨hRows, hPk⟩ := ih (st.modify ct _)
    refine ⟨hRows.trans (rows_modify ..), hPk.trans ?_⟩
    rw [handles_modify_self]

section Invariant

variable {total : Prop} (I : Rows τ ι → Prop)

/-- A call for a row that is there keeps `I`, and returns where it is to. -/
def Keeps (total : Prop) (call : Call τ ι) : Prop :=
  ∀ op t h st, I st.rows → st.rows.get (t, (st.handles h).currentPk) ≠ none →
    Meets total (call op t h st) fun st' => I st'.rows

variable {I} (hCall : Keeps I total call)
include hCall

theorem applyRef_keeps (ref : Bytes) (st : State τ ι) (hSt : I st.rows) :
    Meets total (applyRef E call d h ct op ref st) fun st' => I st'.rows := by
  rw [applyRef]
  split
  · exact meets_some hSt
  · rename_i row hRow
    have hThere : st.rows.get (d.child, ref) ≠ none := hRow ▸ Option.some_ne_none row
    split
    · refine hCall _ _ _ _ hSt ?_
      rw [handles_modify_self, handles_modify_self]
      exact hThere
    · cases op with
      | delete =>
        refine hCall _ _ _ _ hSt ?_
        rw [handles_modify_self]
        exact hThere
      | update =>
        obtain ⟨hRows, hPk⟩ := setFields_kept (E := E) d h ct Handle.record0
          ((st.modify ct fun c => { c with record0 := row, currentPk := ref }).modify ct fun c => { c with
            record1 := c.record0 })
        refine hCall _ _ _ _ (hRows ▸ hSt) ?_
        rw [hRows, hPk, handles_modify_self, handles_modify_self]
        exact hThere

omit [DecidableEq ι] hCall in
theorem restrict_keeps (oldRow : Row ι) (st : State τ ι) (hSt : I st.rows) :
    Meets total (restrict E d oldRow st) fun st' => I st'.rows := by
  rw [restrict]
  split
  · exact meets_error
  · exact meets_some hSt

theorem enforce_keeps (st : State τ ι) (hSt : I st.rows) :
    Meets total (fkEnforceParent E S call h op d st) fun st' => I st'.rows := by
  rw [fkEnforceParent]
  split
  · exact meets_some hSt
  · split
    · rw [fkCascadeChildren]
      split
      · exact restrict_keeps _ st hSt
      · rename_i ct _
        split
        · exact meets_some hSt
        · refine Meets.lastly (meets_walk_of_mem (fun s : State τ ι => I s.rows) (fun ref _ s hs => ?_) _ ?_)
          · exact applyRef_keeps hCall ref s hs
          · rw [rows_modify, fkCollectChildRefs, rows_modify, (setFields_kept d h ct op.oldRow st).1]
            exact hSt
    · exact restrict_keeps _ st hSt

theorem enforceAll_keeps (t : τ) (st : State τ ι) (hSt : I st.rows) :
    Meets total (walk (fkEnforceParent E S call h op) (fkParent E t) st) fun st' => I st'.rows :=
  meets_walk_of_mem (fun s => I s.rows) (fun _ _ s hs => enforce_keeps hCall s hs) st hSt

end Invariant

section Agreement

variable {e : HaError} (hCall : ∀ op t h st, UpTo e (call op t h st) (call' op t h st))
include hCall

theorem applyRef_upTo (ref : Bytes) (st : State τ ι) :
    UpTo e (applyRef E call d h ct op ref st) (applyRef E call' d h ct op ref st) := by
  rw [applyRef, applyRef]
  split
  · exact upTo_refl e _
  · split
    · exact hCall _ _ _ _
    · cases op with
      | delete | update => exact hCall _ _ _ _

theorem enforce_upTo (d : FkDef τ ι) (st : State τ ι) :
    UpTo e (fkEnforceParent E S call h op d st) (fkEnforceParent E S call' h op d st) := by
  rw [fkEnforceParent, fkEnforceParent]
  split
  · exact upTo_refl e _
  · split
    · rw [fkCascadeChildren, fkCascadeChildren]
      split
      · exact upTo_refl e _
      · split
        · exact upTo_refl e _
        · exact (upTo_walk (applyRef_upTo hCall) _ _).lastly _
    · exact upTo_refl e _

theorem rowCall_upTo (op : RowOp) (t : τ) (h : Nat) (st : State τ ι) :
    UpTo e (rowCall E S call op t h st) (rowCall E S call' op t h st) := by
  cases op with
  | delete => exact (upTo_walk (enforce_upTo hCall) _ _).andThen fun _ => upTo_refl e _
  | update =>
    rw [rowCall, rowCall, updateRow, updateRow]
    split
    · exact upTo_refl e _
    · split
      · exact upTo_refl e _
      · exact (upTo_walk (enforce_upTo hCall) _ _).andThen fun _ => upTo_refl e _

end Agreement

end Calls

section Occupied

variable {τ ι : Type} [DecidableEq τ]

/-- The rows there are, and those a call is under way for. -/
def occupied (busy : List (τ × Bytes)) (rows : Rows τ ι) : Finset (τ × Bytes) := (busy ++ rows.names).toFinset

variable {busy : List (τ × Bytes)} {rows : Rows τ ι} {k k' : τ × Bytes} {r : Row ι}

theorem mem_occupied : k ∈ occupied busy rows ↔ k ∈ busy ∨ rows.get k ≠ none := by
  rw [occupied, mem_toFinset, mem_append, Store.mem_names_iff]

theorem occupied_cons (hThere : rows.get k ≠ none) : occupied (k :: busy) rows = occupied busy rows := by
  ext x
  rw [mem_occupied, mem_occupied, mem_cons, or_assoc, or_iff_right_of_imp]
  rintro rfl
  exact .inr hThere

theorem occupied_subset_cons : occupied busy rows ⊆ occupied (k :: busy) rows := by
  intro x hx
  rw [mem_occupied] at hx ⊢
  exact hx.imp_left (mem_cons_of_mem k)

theorem occupied_drop_subset : occupied busy (rows.drop k') ⊆ occupied busy rows := by
  intro x hx
  rw [mem_occupied] at hx ⊢
  refine hx.imp_right fun hGet hNone => hGet ?_
  rw [Store.get_drop, hNone, ite_self]

theorem occupied_put_subset : occupied busy (rows.put k r) ⊆ occupied (k :: busy) rows := by
  intro x hx
  rw [mem_occupied, Store.get_put] at hx
  rw [mem_occupied, mem_cons]
  split at hx
  · rename_i hEq
    exact .inl (.inl hEq)
  · exact hx.imp_left .inr

/-- A row that moves to another key leaves its own. -/
theorem card_occupied_move (hFree : k ∉ busy) :
    (occupied busy ((rows.drop k).put k' r)).card ≤ (occupied (k :: busy) rows).card := by
  have hKey : k ∈ occupied (k :: busy) rows := mem_occupied.mpr (.inl mem_cons_self)
  have hSub : occupied busy ((rows.drop k).put k' r) ⊆ insert k' ((occupied (k :: busy) rows).erase k) := by
    intro x hx
    rw [mem_occupied, Store.get_put, Store.get_drop] at hx
    rw [Finset.mem_insert, Finset.mem_erase, mem_occupied, mem_cons]
    by_cases hNew : x = k'
    · exact .inl hNew
    · obtain hBusy | hGet := hx
      · exact .inr ⟨fun hEq => hFree (hEq ▸ hBusy), .inl (.inr hBusy)⟩
      · rw [if_neg hNew] at hGet
        have hOld : x ≠ k := fun hEq => hGet (if_pos hEq)
        rw [if_neg hOld] at hGet
        exact .inr ⟨hOld, .inr hGet⟩
  calc (occupied busy ((rows.drop k).put k' r)).card
      ≤ (insert k' ((occupied (k :: busy) rows).erase k)).card := Finset.card_le_card hSub
    _ ≤ ((occupied (k :: busy) rows).erase k).card + 1 := Finset.card_insert_le _ _
    _ = (occupied (k :: busy) rows).card := Finset.card_erase_add_one hKey

theorem length_le_card_occupied (hNodup : busy.Nodup) : busy.length ≤ (occupied busy rows).card := by
  rw [← toFinset_card_of_nodup hNodup]
  refine Finset.card_le_card fun x hx => mem_occupied.mpr (.inl ?_)
  exact mem_toFinset.mp hx

theorem card_occupied_le (busy : List (τ × Bytes)) (rows : Rows τ ι) :
    (occupied busy rows).card ≤ busy.length + rows.names.length := by
  rw [← length_append]
  exact toFinset_card_le _

end Occupied

section Ends

variable {τ ι β : Type} [DecidableEq τ] [DecidableEq ι] {E : Schema τ ι β} {S : Stmt τ}

/-- A call takes up its own row at most, so the rows under way and those that are there never become more. -/
theorem watched_meets (n : Nat) : ∀ busy op t h (st : State τ ι), busy.Nodup →
    Meets ((occupied ((t, (st.handles h).currentPk) :: busy) st.rows).card < busy.length + n)
      (watched E S n busy op t h st) fun st' =>
        (occupied busy st'.rows).card ≤ (occupied ((t, (st.handles h).currentPk) :: busy) st.rows).card := by
  induction n with
  | zero =>
    intro busy op t h st hNodup
    refine meets_none fun hLt => ?_
    have hLe : busy.length ≤ (occupied busy st.rows).card := length_le_card_occupied hNodup
    have hSub : (occupied busy st.rows).card ≤ (occupied ((t, (st.handles h).currentPk) :: busy) st.rows).card :=
      Finset.card_le_card occupied_subset_cons
    omega
  | succ n ih =>
    intro busy op t h st hNodup
    rw [watched]
    generalize hKey : (t, (st.handles h).currentPk) = key
    split
    · exact meets_error
    · rename_i hBusy
      have hFree : key ∉ busy := by simpa using hBusy
      have hCall : Keeps (fun rows => (occupied (key :: busy) rows).card ≤ (occupied (key :: busy) st.rows).card)
          ((occupied (key :: busy) st.rows).card < busy.length + (n + 1)) (watched E S n (key :: busy)) := by
        intro op' t' h' s hs hThere
        have hNested := ih (key :: busy) op' t' h' s (nodup_cons.mpr ⟨hFree, hNodup⟩)
        rw [occupied_cons hThere, length_cons] at hNested
        exact (hNested.of_imp fun hLt => by omega).mono fun s' hs' => hs'.trans hs
      cases op with
      | delete =>
        refine (enforceAll_keeps hCall t st (Nat.le_refl _)).andThen fun s hs => meets_some ?_
        exact (Finset.card_le_card (occupied_drop_subset.trans occupied_subset_cons)).trans hs
      | update =>
        rw [rowCall, updateRow]
        split
        · exact meets_error
        · split
          · exact meets_error
          · refine (enforceAll_keeps hCall t (st.modify h _) (Nat.le_refl _)).andThen fun s hs => meets_some ?_
            refine Nat.le_trans ?_ hs
            rw [rows_modify, hKey]
            split
            · rename_i hSame
              rw [hSame, hKey]
              exact Finset.card_le_card occupied_put_subset
            · exact card_occupied_move hFree

/-- With the check every call comes to an end. -/
theorem watched_ne_none (op : RowOp) (t : τ) (h : Nat) (st : State τ ι) :
    watched E S (nesting st) [] op t h st ≠ none := by
  refine (watched_meets (nesting st) [] op t h st nodup_nil).returns ?_
  have hLe := card_occupied_le [(t, (st.handles h).currentPk)] st.rows
  rw [length_singleton] at hLe
  rw [length_nil, nesting]
  omega

theorem watched_upTo (n : Nat) (busy : List (τ × Bytes)) (op : RowOp) (t : τ) (h : Nat) (st : State τ ι) :
    UpTo .rowUnderWay (watched E S n busy op t h st) (run E S n op t h st) := by
  induction n generalizing busy op t h st with
  | zero => exact upTo_refl _ _
  | succ n ih =>
    rw [watched, run]
    split
    · intro x hx hNe
      cases hx
      exact absurd rfl hNe
    · exact rowCall_upTo (ih _) op t h st

end Ends

section Samples

def tree : Schema Unit Column Unit := staff [selfSpec .boss .id .primary .cascade .cascade]

def toBoss : FkDef Unit Column :=
  { selfSpec .boss .id .primary .cascade .cascade with
    parentCf := some ()
    childKeyNo := .secondary 1
    parentKeyNo := some .primary
    childNullable := [true]
    parentNullable := [] }

def couple : Rows Unit Column := (Store.empty.put ((), [1]) (person 1 none none)).put ((), [2]) (person 2 none (some 1))

def crossed : Schema Unit Column Unit :=
  staff [selfSpec .boss .code (.secondary 0) .restrict .setNull, selfSpec .code .boss (.secondary 1) .restrict .setNull]

def selfish : Row Column := person 1 (some 1) (some 1)

def single : Rows Unit Column := Store.empty.put ((), [1]) selfish

def cleared (col : Column) : Row Column := fun c => if c ∈ [col] then none else selfish c

def clearedOnUpdate : Schema Unit Column Unit := staff [selfSpec .boss .id .primary .restrict .setNull]

def ownBoss : Rows Unit Column := Store.empty.put ((), [1]) (person 1 none (some 1))

-- a row that is its own boss is called for again when its number changes, and both calls return
example :
    Reenters clearedOnUpdate alone .update () 0
        (positioned ownBoss [1] (person 1 none (some 1)) (person 2 none (some 1))) ∧
      Finishes clearedOnUpdate alone .update () 0
        (positioned ownBoss [1] (person 1 none (some 1)) (person 2 none (some 1))) :=
  ⟨by decide, 2, fun h => by cases h⟩

def bossToCode : FkDef Unit Column :=
  { selfSpec .boss .code (.secondary 0) .restrict .setNull with
    parentCf := some ()
    childKeyNo := .secondary 1
    parentKeyNo := some (.secondary 0)
    childNullable := [true]
    parentNullable := [true] }

def codeToBoss : FkDef Unit Column :=
  { selfSpec .code .boss (.secondary 1) .restrict .setNull with
    parentCf := some ()
    childKeyNo := .secondary 0
    parentKeyNo := some (.secondary 1)
    childNullable := [true]
    parentNullable := [true] }

theorem fkParent_crossed : fkParent crossed () = [bossToCode, codeToBoss] := rfl

def clearing (H : Nat → Handle Column) (col : Column) (buf : Row Column) (b : Bool) : State Unit Column :=
  ⟨single, Function.update H 0 ⟨cleared col, selfish, buf, [1], b⟩⟩

theorem eq_clearing {H : Nat → Handle Column} {col : Column} {buf : Row Column} {b : Bool}
    (h : H 0 = ⟨cleared col, selfish, buf, [1], b⟩) : (⟨single, H⟩ : State Unit Column) = clearing H col buf b := by
  rw [clearing, ← h, update_eq_self]

theorem enforce_clearing {call : Call Unit Column} (H : Nat → Handle Column) (b : Bool)
    (hCall : ∀ H col buf, col = .code ∨ col = .boss → call .update () 0 (clearing H col buf true) = none) :
    fkEnforceParent crossed alone call 0 .update bossToCode (clearing H .code (cleared .code) b) = none ∧
      fkEnforceParent crossed alone call 0 .update codeToBoss (clearing H .boss (cleared .boss) b) = none := by
  constructor
  · obtain ⟨H', g, hEq, hH'⟩ : ∃ H' g,
        fkEnforceParent crossed alone call 0 .update bossToCode (clearing H .code (cleared .code) b) =
          lastly (andThen (call .update () 0 ⟨single, H'⟩) g) (fun st => st.modify 0 (.setInCascade false)) ∧
        H' 0 = ⟨cleared .boss, selfish, cleared .code, [1], true⟩ := by
      refine ⟨_, _, rfl, ?_⟩
      rfl
    rw [hEq, eq_clearing hH', hCall _ _ _ (.inr rfl)]
    rfl
  · obtain ⟨H', g, hEq, hH'⟩ : ∃ H' g,
        fkEnforceParent crossed alone call 0 .update codeToBoss (clearing H .boss (cleared .boss) b) =
          lastly (andThen (call .update () 0 ⟨single, H'⟩) g) (fun st => st.modify 0 (.setInCascade false)) ∧
        H' 0 = ⟨cleared .code, selfish, cleared .boss, [1], true⟩ := by
      refine ⟨_, _, rfl, ?_⟩
      rfl
    rw [hEq, eq_clearing hH', hCall _ _ _ (.inl rfl)]
    rfl

theorem checks_clearing {col : Column} (hCol : col = .code ∨ col = .boss) :
    updateCheckUnique crossed single () selfish (cleared col) [1] [1] = true ∧
      fkCheckChild crossed single () (cleared col) = true := by
  obtain rfl | rfl := hCol
  · decide
  · decide

theorem run_clearing (n : Nat) : ∀ H col buf b, col = .code ∨ col = .boss →
    run crossed alone n .update () 0 (clearing H col buf b) = none := by
  induction n with
  | zero => exact fun _ _ _ _ _ => rfl
  | succ n ih =>
    intro H col buf b hCol
    obtain ⟨hUnique, hCheck⟩ := checks_clearing hCol
    have hPk : pkFromRecord (crossed.table ()) [1] (cleared col) = [1] := by
      obtain rfl | rfl := hCol <;> rfl
    have hHandle : (clearing H col buf b).handles 0 = ⟨cleared col, selfish, buf, [1], b⟩ := by
      exact update_self 0 _ H
    have hModify : ((clearing H col buf b).modify 0 fun c => { c with rowBuf := c.record0 }) =
        clearing H col (cleared col) b := by
      simp only [clearing, State.modify, update_self, update_idem]
    have hWalk : walk (fkEnforceParent crossed alone (run crossed alone n) 0 .update) (fkParent crossed ())
        (clearing H col (cleared col) b) = none := by
      have hEnforce := enforce_clearing H b fun H col buf hCol => ih H col buf true hCol
      rw [fkParent_crossed]
      obtain rfl | rfl := hCol
      · rw [walk, hEnforce.1, andThen]
      · have hSkip : fkEnforceParent crossed alone (run crossed alone n) 0 .update bossToCode
            (clearing H .boss (cleared .boss) b) = some (none, clearing H .boss (cleared .boss) b) := if_pos ⟨rfl, rfl⟩
        rw [walk, hSkip, andThen, walk, hEnforce.2, andThen]
    have hUnique' : updateCheckUnique crossed (clearing H col buf b).rows () selfish (cleared col) [1] [1] = true :=
      hUnique
    have hCheck' : fkCheckChild crossed (clearing H col buf b).rows () (cleared col) = true := hCheck
    rw [run, rowCall, updateRow]
    simp only [hHandle, hPk, hUnique', hCheck', hModify, hWalk, Bool.not_true, Bool.and_false, Bool.false_eq_true,
      if_false, andThen]

def deleting (H : Nat → Handle Column) (old buf : Row Column) (b : Bool) : State Unit Column :=
  ⟨ownBoss, Function.update H 0 ⟨person 1 none (some 1), old, buf, [1], b⟩⟩

theorem enforce_deleting {call : Call Unit Column} (H : Nat → Handle Column) (old buf : Row Column) (b : Bool)
    (hCall : ∀ H old buf, call .delete () 0 (deleting H old buf true) = none) :
    fkEnforceParent tree alone call 0 .delete toBoss (deleting H old buf b) = none := by
  obtain ⟨H', g, hEq, hH'⟩ : ∃ H' g, fkEnforceParent tree alone call 0 .delete toBoss (deleting H old buf b) =
        lastly (andThen (call .delete () 0 ⟨ownBoss, H'⟩) g) (fun st => st.modify 0 (.setInCascade false)) ∧
      H' 0 = ⟨person 1 none (some 1), (H' 0).record1, buf, [1], true⟩ := by
    refine ⟨_, _, rfl, ?_⟩
    rfl
  have hAgain : (⟨ownBoss, H'⟩ : State Unit Column) = deleting H' (H' 0).record1 buf true := by
    rw [deleting, ← hH', update_eq_self]
  rw [hEq, hAgain, hCall]
  rfl

theorem run_deleting (n : Nat) : ∀ H old buf b, run tree alone n .delete () 0 (deleting H old buf b) = none := by
  induction n with
  | zero => exact fun _ _ _ _ => rfl
  | succ n ih =>
    intro H old buf b
    have hEnforce := enforce_deleting H old buf b fun H old buf => ih H old buf true
    rw [run, rowCall, deleteRow, show fkParent tree () = [toBoss] from rfl, walk, hEnforce]
    rfl

end Samples

end TideSql.FkCascade
