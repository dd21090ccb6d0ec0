import TideSql.Lib.PutOnce
import TideSql.Handler.IndexRuns

/-!
# The single-delete contract of the index families

Entries of secondary, full-text and spatial indexes are deleted by single-deletes, which the library asks to
be at most one put apart.
-/

namespace TideSql.Dml
open KeyCodec SortKey IndexRead Lib Lib.Bytes Lib.Snapshot Lib.Run

section Walks

variable {ι β : Type} {T : Table ι β}

def inIndex (k : Key) : Prop := k.1 ≠ .data

theorem careful_tag {c : Key → Option (Val ι)} {i : Nat} {ops : List (Op Bytes (Val ι))}
    (h : Careful (fun _ => True) (fun k => c (.idx i, k)) ops) : Careful inIndex c (ops.map (tag i)) := by
  induction ops generalizing c with
  | nil => trivial
  | cons o ops ih =>
    refine ⟨fun v hv _ => ?_, ih ?_⟩
    · cases o with
      | put k v' => exact h.1 v' rfl trivial
      | del k => cases hv
    · rw [update_tag]
      exact h.2

theorem careful_zipIdx (f : IndexShape ι → List (Op Bytes (Val ι))) (l : List (IndexShape ι)) (n : Nat)
    (c : Key → Option (Val ι))
    (h : ∀ i x, l[i]? = some x → Careful (fun _ => True) (fun k => c (.idx (n + i), k)) (f x)) :
    Careful inIndex c ((l.zipIdx n).flatMap fun x => (f x.1).map (tag x.2)) := by
  induction l generalizing n c with
  | nil => trivial
  | cons y l ih =>
    rw [List.zipIdx_cons, List.flatMap_cons, careful_append]
    refine ⟨careful_tag (h 0 y rfl), ih (n + 1) _ fun i x hx => ?_⟩
    have hTail := h (i + 1) x hx
    refine careful_congr (fun k _ => ?_) hTail
    rw [show n + 1 + i = n + (i + 1) by omega, updateAll_tag_ne c (by omega)]

theorem careful_rowOps {c : Key → Option (Val ι)} (primary : List (Op Key (Val ι)))
    (hPrimary : ∀ o ∈ primary, o.key.1 = .data) (f : IndexShape ι → List (Op Bytes (Val ι)))
    (h : ∀ i x, T.indexes[i]? = some x → Careful (fun _ => True) (fun k => c (.idx i, k)) (f x)) :
    Careful inIndex c (primary ++ maintain T f) := by
  rw [careful_append]
  refine ⟨careful_of_not fun o ho hIn => hIn (hPrimary o ho), careful_zipIdx f T.indexes 0 _ fun i x hx => ?_⟩
  refine careful_congr (fun k _ => ?_) (h i x hx)
  rw [Nat.zero_add]
  refine (updateAll_of_notMem c fun hMem => ?_).symm
  obtain ⟨o, ho, hKey⟩ := List.mem_map.mp hMem
  have hFamily := hPrimary o ho
  rw [hKey] at hFamily
  cases hFamily

end Walks

section Calls

variable {ι β : Type} {T : Table ι β} {i : Nat} {x : IndexShape ι} {s : Session} {view : Store Key (Val ι)}

def CallKeeps (T : Table ι β) (x : IndexShape ι) : Call ι → Prop
  | .update currentPk old new ws => KeepsPostings (toUpdate T currentPk old new ws) x
  | _ => True

theorem careful_write (hx : T.indexes[i]? = some x) (h : ∀ pk, Good T i x pk view.get) {gen : Bool} {rowId : Nat}
    {buf : Row ι} {ops : List (Op Key (Val ι))} (hSettled : CallSettled T x s view.get (.write gen rowId buf))
    (hOk : writeRow T s gen rowId buf view = .ok ops) :
    Careful (fun _ => True) (fun k => view.get (.idx i, k)) (writeIndex T (writeBuildPk T rowId buf) buf x) := by
  rw [writeIndex_eq (writeBuildPk_own rowId buf)]
  refine careful_patch (nodup_entries hSettled.1 _) fun key hKey => .inr ?_
  obtain ⟨e, he, rfl⟩ := List.mem_map.mp hKey
  exact (h _).get_none (pkOf_entries he) (write_fresh hx hSettled hOk)

theorem careful_update (h : ∀ pk, Good T i x pk view.get) {currentPk : Bytes} {old new : Row ι} {ws : ι → Bool}
    {ops : List (Op Key (Val ι))} (hSettled : CallSettled T x s view.get (.update currentPk old new ws))
    (hKeeps : CallKeeps T x (.update currentPk old new ws))
    (hOk : updateRow T s (toUpdate T currentPk old new ws) view = .ok ops) :
    Careful (fun _ => True) (fun k => view.get (.idx i, k)) (updateIndex T (toUpdate T currentPk old new ws) x) := by
  obtain ⟨⟨dels, puts, hCarries⟩, hFresh⟩ := update_carried h hSettled hOk
  rw [hCarries.ops_eq]
  refine careful_patch hCarries.nodup fun key hKey => ?_
  have hPk := hCarries.pkOf_puts hKey
  obtain hSame | hMoved := eq_or_ne currentPk (pkFromRecord T currentPk new)
  · -- the entries of the old row are all there is under its key
    by_cases hOld : key ∈ (entries T currentPk old x).map Prod.fst
    · exact .inl (hCarries.clean hKeeps key hKey hOld)
    · refine .inr (Option.eq_none_iff_forall_ne_some.mpr fun v hv => hOld ?_)
      have hWanted := ((h currentPk).entry_iff key v (hPk.trans hSame.symm)).mp hv
      rw [wanted_of_row hSettled.1] at hWanted
      exact List.mem_map.mpr ⟨_, hWanted, rfl⟩
  · exact .inr ((h _).get_none hPk (hFresh hMoved))

theorem careful_delete {currentPk : Bytes} {buf : Row ι} (h : ∀ pk, Good T i x pk view.get)
    (hSettled : CallSettled T x s view.get (.delete currentPk buf)) :
    Careful (fun _ => True) (fun k => view.get (.idx i, k)) (deleteIndex T currentPk buf x) := by
  obtain ⟨r, hr, hOwn, -⟩ := (h currentPk).own _ hSettled
  cases hr
  rw [deleteIndex_eq hOwn]
  exact careful_patch List.nodup_nil fun _ hKey => by cases hKey

theorem rowCall_careful {c : Call ι} {ops : List (Op Key (Val ι))}
    (h : ∀ i x, T.indexes[i]? = some x → ∀ pk, Good T i x pk view.get)
    (hSettled : ∀ x ∈ T.indexes, CallSettled T x s view.get c ∧ CallKeeps T x c)
    (hOk : rowCall T s view c = .ok ops) : Careful inIndex view.get ops := by
  have hCall : ∀ {i x}, T.indexes[i]? = some x → CallSettled T x s view.get c ∧ CallKeeps T x c := fun hx =>
    hSettled _ (List.mem_of_getElem? hx)
  cases c with
  | write gen rowId buf =>
    obtain ⟨-, -, rfl⟩ := writeRow_ok hOk
    refine careful_rowOps [.put _ _] (List.forall_mem_singleton.mpr rfl) _ fun i x hx => ?_
    exact careful_write hx (h i x hx) (hCall hx).1 hOk
  | update currentPk old new ws =>
    obtain ⟨-, rfl⟩ := updateRow_ok hOk
    refine careful_rowOps _ (fun _ ho => updateRewritePrimary_family ho) _ fun i x hx => ?_
    exact careful_update (h i x hx) (hCall hx).1 (hCall hx).2 hOk
  | delete currentPk buf =>
    cases hOk
    refine careful_rowOps [.del _] (List.forall_mem_singleton.mpr rfl) _ fun i x hx => ?_
    exact careful_delete (h i x hx) (hCall hx).1

end Calls

section Runs

variable {τ ι β : Type} [DecidableEq τ] {T : Table ι β}

/-- The row call of the action, if it is one, is settled for every index and puts no posting again. -/
def SettledOnce (T : Table ι β) (w : World τ Key (Val ι)) : Action τ ι → Prop
  | .row j s c => ∀ t, w.active j = some t → ∀ x ∈ T.indexes, CallSettled T x s t.view.get c ∧ CallKeeps T x c
  | _ => True

omit [DecidableEq τ] in
theorem settled_of_settledOnce {w : World τ Key (Val ι)} {a : Action τ ι} (h : SettledOnce T w a) {x : IndexShape ι}
    (hx : x ∈ T.indexes) : Settled T x w a := by
  cases a with
  | row j s c => exact fun t ht => (h t ht x hx).1
  | start j | undo j n | commit j | abort j => trivial

theorem carefulWorld_of_reach {w : World τ Key (Val ι)}
    (h : Reach (step T) (SettledOnce T) (init Store.empty) w) : CarefulWorld inIndex Store.empty w := by
  have hInv := h.invariant (fun w => (∀ i x, T.indexes[i]? = some x →
      Kept (group T) dataKey (Good T i x) Store.empty w) ∧ CarefulWorld inIndex Store.empty w)
    ⟨fun _ _ _ => kept_init good_empty, carefulWorld_init⟩ ?_
  · exact hInv.2
  rintro w a w' ⟨hKept, hCareful⟩ hSettled hStep
  refine ⟨fun i x hx => ?_, ?_⟩
  · exact kept_step hx (hKept i x hx) (settled_of_settledOnce hSettled (List.mem_of_getElem? hx)) hStep
  obtain rfl | ⟨b, hStep, hNot, -⟩ | ⟨j, s, c, t, ops, rfl, ht, hOk, hStep⟩ := step_cases hStep
  · exact hCareful
  · exact hCareful.step (fun j ops t hEq => absurd hEq (hNot j ops)) hStep
  · refine hCareful.step (fun j' ops' t' hEq ht' => ?_) hStep
    cases hEq
    cases ht.symm.trans ht'
    exact rowCall_careful (fun i x hx => (hKept i x hx).view ht) (hSettled t ht) hOk

/-- No entry is put twice without a single-delete in between, and a single-delete may go away together with the put
before it. -/
theorem single_delete_contract {opts : TtlOptions ι} {st : Timed τ ι}
    (h : Reach (timedStep opts T) (NoTtl opts (SettledOnce T)) timedInit st) (i : Nat) (key : Bytes) :
    PutOnce (.idx i, key) st.plain.log.flatten ∧
      ∀ pre v mid post, st.plain.log.flatten = pre ++ .put (.idx i, key) v :: (mid ++ .del (.idx i, key) :: post) →
        (.idx i, key) ∉ keys mid → updateAll Store.empty.get (pre ++ (mid ++ post)) = st.committed.get := by
  have hCareful := carefulWorld_of_reach (reach_plain h).2
  have hIn : inIndex (.idx i, key) := fun hEq => by cases hEq
  refine ⟨putOnce_of_careful hCareful.logged hIn, fun pre v mid post hLog hMid => ?_⟩
  have hLogged := hCareful.logged
  rw [committed_eq h, hCareful.coherent.history, get_applyAll, hLog]
  rw [hLog] at hLogged
  exact updateAll_drop_pair hIn hMid hLogged

def retelling : List (Action Unit Column) :=
  [.start (), .row () checked (.write false 0 (place 1 1)),
    .row () checked (.update [1] (place 1 1) (Function.update (place 1 1) .doc (some (sea ++ 0x20 :: sea))) (· = .doc)),
    .commit ()]

def reinserting : List (TimedAction Unit Column) :=
  [.call 10 (.start ()), .call 10 (.row () checked (.write false 0 (place 1 1))), .call 10 (.commit ()), .tick 10,
    .call 10 (.start ()), .call 10 (.row () checked (.write false 0 (place 1 1))), .call 10 (.commit ())]

/-- The posting of the word is put for the row, and put again with its new count. A row that has expired is put again
with all its entries. -/
theorem retold_posting_put_twice :
    (run (timedStep noTtl places) timedInit (retelling.map (.call 0)) = some (afterTicks (retelling.map (.call 0))) ∧
      ¬PutOnce (.idx 1, ftsBuildKey sea [1]) (afterTicks (retelling.map (.call 0))).plain.log.flatten) ∧
    run (timedStep noTtl places) timedInit reinserting = some (afterTicks reinserting) ∧
      ¬PutOnce (.idx 1, ftsBuildKey sea [1]) (afterTicks reinserting).plain.log.flatten := by
  refine ⟨⟨rfl, fun hOnce => ?_⟩, rfl, fun hOnce => ?_⟩
  · have hDel := hOnce [_, _] (.bytes (ftsBuildValue 1 1)) [_, _] (.bytes (ftsBuildValue 2 2)) [] rfl
    simp [tag, Op.map, Expiry.stamp] at hDel
  · have hDel := hOnce [_, _] (.bytes (ftsBuildValue 1 1)) [_, _, _] (.bytes (ftsBuildValue 1 1)) [_] rfl
    simp [tag, Op.map, Expiry.stamp] at hDel

theorem moving_places {x : IndexShape Column} (hx : x ∈ places.indexes) :
    (∀ n, Fit x (place n 1)) ∧ MovesWith (toUpdate places [1] (place 1 1) (place 2 1) fun _ => true) x ∧
      CallKeeps places x (.update [1] (place 1 1) (place 2 1) fun _ => true) := by
  simp only [places, List.mem_cons, List.not_mem_nil, or_false] at hx
  obtain rfl | rfl | rfl := hx
  · exact ⟨fun _ => trivial, trivial, trivial⟩
  · refine ⟨fun n => fit_place n 1, fun _ => ⟨.doc, List.mem_cons_self, rfl⟩, fun hSame => ?_⟩
    exact absurd hSame (by decide)
  · exact ⟨fun _ => trivial, fun _ => rfl, trivial⟩

theorem single_delete_contract_moving : (Timed.untimed 60 (after (moving fun _ => true))).plain.log.length = 2 ∧
    PutOnce (.idx 1, ftsBuildKey sea [2]) (Timed.untimed 60 (after (moving fun _ => true))).plain.log.flatten := by
  have hReach : Reach (step places) (SettledOnce places) (init Store.empty) (after (moving fun _ => true)) := by
    refine reach_moving (fun _ => trivial) (fun _ => trivial) (fun t _ x hx => ?_) fun t ht x hx => ?_
    · exact ⟨⟨(moving_places hx).1 1, .inl ⟨rfl, rfl, rfl⟩⟩, trivial⟩
    · obtain ⟨hFit, hMoves, hKeeps⟩ := moving_places hx
      exact ⟨callSettled_moving (hFit 2) hMoves ht, hKeeps⟩
  exact ⟨rfl, (single_delete_contract (T := places) (reach_untimed rowTtl_noTtl hReach 60) 1 _).1⟩

end Runs

end TideSql.Dml
