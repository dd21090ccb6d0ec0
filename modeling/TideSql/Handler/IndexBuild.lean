import TideSql.Core.CfName
import TideSql.Handler.InplaceCheck
import TideSql.Lib.Run
import TideSql.Lib.SortedMap

/-!
# Building indexes while other sessions write

`ADD INDEX` is accepted at the lock level at which other sessions go on writing.
-/

namespace TideSql.IndexBuild
open CfName InplaceCheck Lib Lib.Run List Option

structure IndexDef (ρ κ : Type) where
  name : Str
  kind : IndexKind
  key : ρ → κ
  hasNull : ρ → Bool
  unique : Bool

def indexBuildBatch : Nat := 100

abbrev IndexEntry (κ π : Type) := Nat × κ × π

variable {π ρ κ : Type}

structure Scan (π ρ κ : Type) where
  remaining : List (π × ρ)
  last : Option π
  rowsProcessed : Nat
  pending : List (IndexEntry κ π)
  seen : List (Nat × κ)

inductive Phase (π ρ κ : Type) where
  | prepared
  | scanning (sc : Scan π ρ κ)
  | boundary (sc : Scan π ρ κ)
  | built
  | aborted
  | altered

structure World (π ρ κ : Type) [LinearOrder π] where
  data : SortedMap π ρ
  index : List (IndexEntry κ π)
  phase : Phase π ρ κ

inductive Action (π ρ : Type) where
  | write (k : π) (v : Option ρ)
  | beginScan
  | visit
  | reseek (seekOk : Bool)
  | finish
  | fail
  | commitAlter

def filled (adds : List (IndexDef ρ κ)) : List (IndexDef ρ κ × Nat) :=
  adds.zipIdx.filter fun d => d.1.kind = .ordinary

def rowEntries (adds : List (IndexDef ρ κ)) (k : π) (r : ρ) : List (IndexEntry κ π) :=
  (filled adds).map fun d => (d.2, d.1.key r, k)

/-- A row whose key has no null part is refused by a unique index that has seen the key. -/
def constrained (adds : List (IndexDef ρ κ)) (r : ρ) : List (Nat × κ) :=
  ((filled adds).filter fun d => d.1.unique && !d.1.hasNull r).map fun d => (d.2, d.1.key r)

def duplicate [DecidableEq κ] (adds : List (IndexDef ρ κ)) (seen : List (Nat × κ)) (r : ρ) : Bool :=
  (constrained adds r).any fun c => c ∈ seen

def Scan.visited (adds : List (IndexDef ρ κ)) (sc : Scan π ρ κ) (k : π) (r : ρ)
    (rest : List (π × ρ)) : Scan π ρ κ where
  remaining := rest
  last := some k
  rowsProcessed := sc.rowsProcessed + 1
  pending := sc.pending ++ rowEntries adds k r
  seen := sc.seen ++ constrained adds r

def step [LinearOrder π] [DecidableEq κ] (adds : List (IndexDef ρ κ)) (w : World π ρ κ) : Action π ρ →
    Option (World π ρ κ)
  | .write k v =>
    match w.phase with
    | .altered => none
    | _ => some { w with data := w.data.write k v }
  | .beginScan =>
    match w.phase with
    | .prepared => some { w with phase := .scanning ⟨w.data.entries, none, 0, [], []⟩ }
    | _ => none
  | .visit =>
    match w.phase with
    | .scanning sc =>
      match sc.remaining with
      | [] => none
      | (k, r) :: rest =>
        if duplicate adds sc.seen r then some { w with phase := .aborted }
        else if (sc.rowsProcessed + 1) % indexBuildBatch = 0 then
          some { w with phase := .boundary (sc.visited adds k r rest) }
        else some { w with phase := .scanning (sc.visited adds k r rest) }
    | _ => none
  | .reseek seekOk =>
    match w.phase with
    | .boundary sc =>
      match sc.last with
      | none => none
      | some k =>
        -- the step past the sought key is made whether or not that key is still there
        some { w with
          index := w.index ++ sc.pending
          phase := .scanning { sc with remaining := if seekOk then (w.data.seek k).tail else [], pending := [] } }
    | _ => none
  | .finish =>
    match w.phase with
    | .scanning sc =>
      if sc.remaining.isEmpty then some { w with index := w.index ++ sc.pending, phase := .built } else none
    | _ => none
  | .fail =>
    match w.phase with
    | .scanning _ | .boundary _ => some { w with phase := .aborted }
    | _ => none
  | .commitAlter =>
    match w.phase with
    | .built => some { w with phase := .altered }
    | _ => none

def init [LinearOrder π] (data : SortedMap π ρ) : World π ρ κ := ⟨data, [], .prepared⟩

def batchEnd (sc : Scan π ρ κ) : Option π :=
  (sc.remaining[indexBuildBatch - 1 - sc.rowsProcessed % indexBuildBatch]?).map Prod.fst

section Agreement

variable (adds : List (IndexDef ρ κ))

def AgreeAt (d d' : List (π × ρ)) (k : π) : Prop :=
  (∃ r r', (k, r) ∈ d ∧ (k, r') ∈ d' ∧ rowEntries adds k r = rowEntries adds k r') ∨
    ((∀ r, (k, r) ∉ d) ∧ ∀ r, (k, r) ∉ d')

variable {adds} in
theorem AgreeAt.symm {d d' : List (π × ρ)} {k : π} (h : AgreeAt adds d d' k) : AgreeAt adds d' d k := by
  obtain ⟨r, r', hr, hr', hEq⟩ | ⟨hNone, hNone'⟩ := h
  · exact Or.inl ⟨r', r, hr', hr, hEq.symm⟩
  · exact Or.inr ⟨hNone', hNone⟩

theorem AgreeAt.refl (d : List (π × ρ)) (k : π) : AgreeAt adds d d k := by
  by_cases h : ∃ r, (k, r) ∈ d
  · obtain ⟨r, hr⟩ := h
    exact Or.inl ⟨r, r, hr, hr, rfl⟩
  · exact Or.inr ⟨fun r hr => h ⟨r, hr⟩, fun r hr => h ⟨r, hr⟩⟩

variable {adds} in
theorem AgreeAt.congr_left {d₁ d₂ d' : List (π × ρ)} {k : π} (hMem : ∀ r, (k, r) ∈ d₁ ↔ (k, r) ∈ d₂)
    (h : AgreeAt adds d₁ d' k) : AgreeAt adds d₂ d' k := by
  simpa only [AgreeAt, hMem] using h

variable [LinearOrder π]

def KeepsEntries (data : SortedMap π ρ) (k : π) (v : Option ρ) : Prop :=
  AgreeAt adds data.entries (data.write k v).entries k

/-- The row's entries stay, or the scan has not begun, or the key lies beyond its batch and a fresh snapshot will
still be taken. -/
def WriteSettled (w : World π ρ κ) : Action π ρ → Prop
  | .write k v => KeepsEntries adds w.data k v ∨
      match w.phase with
      | .prepared | .aborted => True
      | .scanning sc => ∃ e, batchEnd sc = some e ∧ e < k
      | .boundary sc => ∃ l, sc.last = some l ∧ l < k
      | .built | .altered => False
  | .reseek seekOk => seekOk = true
  | _ => True

def Passed {π : Type} [LE π] (last : Option π) (k : π) : Prop := ∃ l, last = some l ∧ k ≤ l

structure Indexed (data : SortedMap π ρ) (entries : List (IndexEntry κ π)) (last : Option π) : Prop where
  entry_iff : ∀ x, x ∈ entries ↔ ∃ k r, (k, r) ∈ data.entries ∧ Passed last k ∧ x ∈ rowEntries adds k r
  last_mem : ∀ l, last = some l → ∃ r, (l, r) ∈ data.entries

structure Ahead (data : SortedMap π ρ) (sc : Scan π ρ κ) : Prop where
  agree : ∀ k, ¬Passed sc.last k → (∀ e, batchEnd sc = some e → k ≤ e) → AgreeAt adds sc.remaining data.entries k
  above : ∀ e ∈ sc.remaining, ¬Passed sc.last e.1
  sorted : sc.remaining.Pairwise fun e e' => e.1 < e'.1

def Complete (data : SortedMap π ρ) (entries : List (IndexEntry κ π)) : Prop :=
  ∀ x, x ∈ entries ↔ ∃ k r, (k, r) ∈ data.entries ∧ x ∈ rowEntries adds k r

def Inv (w : World π ρ κ) : Prop :=
  match w.phase with
  | .prepared => w.index = []
  | .scanning sc => Indexed adds w.data (w.index ++ sc.pending) sc.last ∧ Ahead adds w.data sc
  | .boundary sc => Indexed adds w.data (w.index ++ sc.pending) sc.last
  | .built | .altered => Complete adds w.data w.index
  | .aborted => True

variable {adds}

theorem AgreeAt.exists_entry {d : List (π × ρ)} {m : SortedMap π ρ} {k : π} {r : ρ} (h : AgreeAt adds d m.entries k)
    (hr : (k, r) ∈ m.entries) : ∃ r', (k, r') ∈ d ∧ rowEntries adds k r' = rowEntries adds k r := by
  obtain ⟨r', r₀, hr', hr₀, hEq⟩ | ⟨_, hNone⟩ := h
  · obtain rfl := SortedMap.eq_of_mem hr₀ hr
    exact ⟨r', hr', hEq⟩
  · exact absurd hr (hNone r)

theorem AgreeAt.trans {d : List (π × ρ)} {m : SortedMap π ρ} {d' : List (π × ρ)} {k : π}
    (h : AgreeAt adds d m.entries k) (h' : AgreeAt adds m.entries d' k) : AgreeAt adds d d' k := by
  obtain ⟨r, r', hr, hr', hEq⟩ | ⟨hNone, hNone'⟩ := h'
  · obtain ⟨r₀, hr₀, hEq₀⟩ := h.exists_entry hr
    exact Or.inl ⟨r₀, r', hr₀, hr', hEq₀.trans hEq⟩
  · obtain ⟨_, r₀, _, hr₀, _⟩ | ⟨hNone₀, _⟩ := h
    · exact absurd hr₀ (hNone r₀)
    · exact Or.inr ⟨hNone₀, hNone'⟩

theorem agreeAt_write_of_ne (data : SortedMap π ρ) {k k' : π} (v : Option ρ) (hNe : k' ≠ k) :
    AgreeAt adds data.entries (data.write k v).entries k' := by
  have hMem : ∀ r, (k', r) ∈ (data.write k v).entries ↔ (k', r) ∈ data.entries := by
    intro r
    simp [SortedMap.mem_write, hNe]
  exact (AgreeAt.refl adds _ k').congr_left hMem

theorem Indexed.of_agree {data data' : SortedMap π ρ} {entries : List (IndexEntry κ π)} {last : Option π}
    (h : Indexed adds data entries last)
    (hAgree : ∀ k, Passed last k → AgreeAt adds data.entries data'.entries k) : Indexed adds data' entries last where
  entry_iff := by
    intro x
    rw [h.entry_iff]
    constructor
    · rintro ⟨k, r, hr, hPassed, hx⟩
      obtain ⟨r', hr', hEq⟩ := (hAgree k hPassed).symm.exists_entry hr
      exact ⟨k, r', hr', hPassed, hEq ▸ hx⟩
    · rintro ⟨k, r, hr, hPassed, hx⟩
      obtain ⟨r', hr', hEq⟩ := (hAgree k hPassed).exists_entry hr
      exact ⟨k, r', hr', hPassed, hEq ▸ hx⟩
  last_mem := by
    intro l hl
    obtain ⟨r, hr⟩ := h.last_mem l hl
    obtain ⟨r', hr', _⟩ := (hAgree l ⟨l, hl, le_refl l⟩).symm.exists_entry hr
    exact ⟨r', hr'⟩

theorem Complete.of_agree {data data' : SortedMap π ρ} {entries : List (IndexEntry κ π)}
    (h : Complete adds data entries) (hAgree : ∀ k, AgreeAt adds data.entries data'.entries k) :
    Complete adds data' entries := by
  intro x
  rw [h x]
  constructor
  · rintro ⟨k, r, hr, hx⟩
    obtain ⟨r', hr', hEq⟩ := (hAgree k).symm.exists_entry hr
    exact ⟨k, r', hr', hEq ▸ hx⟩
  · rintro ⟨k, r, hr, hx⟩
    obtain ⟨r', hr', hEq⟩ := (hAgree k).exists_entry hr
    exact ⟨k, r', hr', hEq ▸ hx⟩

end Agreement

section Steps

variable [LinearOrder π] {adds : List (IndexDef ρ κ)} {data : SortedMap π ρ} {sc : Scan π ρ κ}
  {index : List (IndexEntry κ π)}

variable {k : π}

theorem KeepsEntries.agree {v : Option ρ} (h : KeepsEntries adds data k v) (k' : π) :
    AgreeAt adds data.entries (data.write k v).entries k' := by
  obtain hEq | hEq := eq_or_ne k' k
  · rw [hEq]
    exact h
  · exact agreeAt_write_of_ne data v hEq

omit [LinearOrder π] in
theorem mem_of_batchEnd {e : π} (h : batchEnd sc = some e) : ∃ r, (e, r) ∈ sc.remaining := by
  obtain ⟨⟨k, r⟩, hGet, rfl⟩ := Option.map_eq_some_iff.mp h
  exact ⟨r, mem_of_getElem? hGet⟩

theorem Ahead.beyond (h : Ahead adds data sc) {e k : π} (hEnd : batchEnd sc = some e) (hk : e < k) :
    (∀ k', Passed sc.last k' → k' ≠ k) ∧ ∀ k', k' ≤ e → k' ≠ k := by
  refine ⟨?_, fun k' hk' => (lt_of_le_of_lt hk' hk).ne⟩
  rintro k' ⟨l, hl, hk'⟩ rfl
  obtain ⟨r, hr⟩ := mem_of_batchEnd hEnd
  exact h.above _ hr ⟨l, hl, hk.le.trans hk'⟩

theorem Ahead.of_agree {data' : SortedMap π ρ} (h : Ahead adds data sc)
    (hAgree : ∀ k, (∀ e, batchEnd sc = some e → k ≤ e) → AgreeAt adds data.entries data'.entries k) :
    Ahead adds data' sc where
  agree := fun k hk hBatch => (h.agree k hk hBatch).trans (hAgree k hBatch)
  above := h.above
  sorted := h.sorted

theorem inv_write {w : World π ρ κ} (h : Inv adds w) {v : Option ρ} (hGuard : WriteSettled adds w (.write k v)) :
    Inv adds { w with data := w.data.write k v } := by
  obtain ⟨data, index, phase⟩ := w
  obtain hKeeps | hGuard := hGuard
  · cases phase with
    | prepared => exact h
    | scanning sc => exact ⟨h.1.of_agree fun k' _ => hKeeps.agree k', h.2.of_agree fun k' _ => hKeeps.agree k'⟩
    | boundary sc => exact Indexed.of_agree h fun k' _ => hKeeps.agree k'
    | built | altered => exact Complete.of_agree h hKeeps.agree
    | aborted => exact h
  · cases phase with
    | prepared => exact h
    | scanning sc =>
      obtain ⟨e, hEnd, hk⟩ := hGuard
      obtain ⟨hPassed, hBatch⟩ := h.2.beyond hEnd hk
      exact ⟨h.1.of_agree fun k' hk' => agreeAt_write_of_ne data v (hPassed k' hk'),
        h.2.of_agree fun k' hk' => agreeAt_write_of_ne data v (hBatch k' (hk' e hEnd))⟩
    | boundary sc =>
      obtain ⟨l, hl, hk⟩ := hGuard
      refine Indexed.of_agree h fun k' hk' => agreeAt_write_of_ne data v ?_
      obtain ⟨l', hl', hle⟩ := hk'
      obtain rfl : l = l' := some.inj (hl.symm.trans hl')
      exact (lt_of_le_of_lt hle hk).ne
    | built | altered => exact absurd hGuard not_false
    | aborted => exact h

variable {rest : List (π × ρ)} {r : ρ}

theorem Ahead.head (h : Ahead adds data sc) (hRemaining : sc.remaining = (k, r) :: rest) :
    ¬Passed sc.last k ∧ (∀ e, batchEnd sc = some e → k ≤ e) ∧
      ∃ r', (k, r') ∈ data.entries ∧ rowEntries adds k r = rowEntries adds k r' := by
  have hSorted := h.sorted
  rw [hRemaining, pairwise_cons] at hSorted
  have hAbove : ¬Passed sc.last k := h.above (k, r) (hRemaining ▸ mem_cons_self)
  have hBatch : ∀ e, batchEnd sc = some e → k ≤ e := by
    intro e hEnd
    obtain ⟨r', hr'⟩ := mem_of_batchEnd hEnd
    rw [hRemaining] at hr'
    obtain hEq | hIn := mem_cons.mp hr'
    · exact (Prod.mk.inj hEq).1.ge
    · exact (hSorted.1 _ hIn).le
  refine ⟨hAbove, hBatch, ?_⟩
  have hMem : (k, r) ∈ sc.remaining := hRemaining ▸ mem_cons_self
  obtain ⟨r₀, r', hr₀, hr', hEq⟩ | ⟨hNone, _⟩ := h.agree k hAbove hBatch
  · have hSame : r₀ = r := SortedMap.eq_of_mem (m := ⟨sc.remaining, h.sorted⟩) hr₀ hMem
    exact ⟨r', hr', hSame ▸ hEq⟩
  · exact absurd hMem (hNone r)

theorem Ahead.passed_of_lt (h : Ahead adds data sc) {k k' : π} {r r' : ρ} (hRemaining : sc.remaining = (k, r) :: rest)
    (hMem : (k', r') ∈ data.entries) (hLt : k' < k) : Passed sc.last k' := by
  by_contra hPassed
  obtain ⟨_, hBatch, _⟩ := h.head hRemaining
  obtain ⟨r₀, hr₀, _⟩ := (h.agree k' hPassed fun e hEnd => hLt.le.trans (hBatch e hEnd)).exists_entry hMem
  have hSorted := h.sorted
  rw [hRemaining, pairwise_cons] at hSorted
  rw [hRemaining] at hr₀
  obtain hEq | hIn := mem_cons.mp hr₀
  · exact hLt.ne (Prod.mk.inj hEq).1
  · exact lt_asymm hLt (hSorted.1 _ hIn)

theorem Indexed.visited (h : Indexed adds data (index ++ sc.pending) sc.last) (hAhead : Ahead adds data sc)
    (hRemaining : sc.remaining = (k, r) :: rest) :
    Indexed adds data (index ++ (sc.visited adds k r rest).pending) (sc.visited adds k r rest).last := by
  obtain ⟨hAbove, _, r', hr', hEntries⟩ := hAhead.head hRemaining
  have hLast : ∀ k', Passed sc.last k' → k' ≤ k := by
    rintro k' ⟨l, hl, hk'⟩
    exact hk'.trans (le_of_not_ge fun hle => hAbove ⟨l, hl, hle⟩)
  refine ⟨fun x => ?_, fun l hl => ?_⟩
  · rw [Scan.visited, ← append_assoc, mem_append, h.entry_iff, hEntries]
    constructor
    · rintro (⟨k', r₀, hr₀, hPassed, hx⟩ | hx)
      · exact ⟨k', r₀, hr₀, ⟨k, rfl, hLast k' hPassed⟩, hx⟩
      · exact ⟨k, r', hr', ⟨k, rfl, le_refl k⟩, hx⟩
    · rintro ⟨k', r₀, hr₀, ⟨l, hl, hk'⟩, hx⟩
      obtain rfl : k = l := some.inj hl
      obtain hLt | rfl := lt_or_eq_of_le hk'
      · exact Or.inl ⟨k', r₀, hr₀, hAhead.passed_of_lt hRemaining hr₀ hLt, hx⟩
      · obtain rfl := SortedMap.eq_of_mem hr₀ hr'
        exact Or.inr hx
  · obtain rfl : k = l := some.inj hl
    exact ⟨r', hr'⟩

omit [LinearOrder π] in
theorem batchEnd_visited (hRemaining : sc.remaining = (k, r) :: rest)
    (hBatch : (sc.rowsProcessed + 1) % indexBuildBatch ≠ 0) : batchEnd (sc.visited adds k r rest) = batchEnd sc := by
  have hSucc : indexBuildBatch - 1 - sc.rowsProcessed % indexBuildBatch =
      indexBuildBatch - 1 - (sc.rowsProcessed + 1) % indexBuildBatch + 1 := by
    simp only [indexBuildBatch] at hBatch ⊢
    omega
  rw [batchEnd, batchEnd, hRemaining, hSucc, getElem?_cons_succ]
  rfl

theorem Ahead.visited (h : Ahead adds data sc) (hRemaining : sc.remaining = (k, r) :: rest)
    (hBatch : (sc.rowsProcessed + 1) % indexBuildBatch ≠ 0) : Ahead adds data (sc.visited adds k r rest) := by
  have hSorted := h.sorted
  rw [hRemaining, pairwise_cons] at hSorted
  obtain ⟨hAbove, _, _⟩ := h.head hRemaining
  refine ⟨fun k' hk' hEnd => ?_, fun e he => ?_, hSorted.2⟩
  · have hLt : k < k' := lt_of_not_ge fun hle => hk' ⟨k, rfl, hle⟩
    have hNot : ¬Passed sc.last k' := by
      rintro ⟨l, hl, hle⟩
      exact hAbove ⟨l, hl, hLt.le.trans hle⟩
    rw [batchEnd_visited hRemaining hBatch] at hEnd
    have hMem : ∀ r', (k', r') ∈ sc.remaining ↔ (k', r') ∈ rest := by
      intro r'
      rw [hRemaining, mem_cons, or_iff_right]
      intro hEq
      exact hLt.ne' (Prod.mk.inj hEq).1
    exact (h.agree k' hNot hEnd).congr_left hMem
  · rintro ⟨l, hl, hle⟩
    obtain rfl : k = l := some.inj hl
    exact not_lt_of_ge hle (hSorted.1 e he)

theorem Ahead.reseek {l : π} (hl : sc.last = some l) (hr : (l, r) ∈ data.entries) :
    Ahead adds data { sc with remaining := (data.seek l).tail, pending := [] } := by
  have hAbove : ∀ k', ¬Passed sc.last k' ↔ l < k' := by
    intro k'
    constructor
    · intro hk'
      exact lt_of_not_ge fun hle => hk' ⟨l, hl, hle⟩
    · rintro hLt ⟨l', hl', hle⟩
      obtain rfl : l = l' := some.inj (hl.symm.trans hl')
      exact not_lt_of_ge hle hLt
  refine ⟨fun k' hk' _ => ?_, fun e he => ?_, (data.seek_sorted l).sublist (tail_sublist _)⟩
  · have hMem : ∀ r', (k', r') ∈ (data.seek l).tail ↔ (k', r') ∈ data.entries := by
      intro r'
      rw [SortedMap.mem_tail_seek hr, and_iff_left ((hAbove k').mp hk')]
    exact (AgreeAt.refl adds data.entries k').congr_left fun r' => (hMem r').symm
  · exact (hAbove e.1).mpr ((SortedMap.mem_tail_seek hr e).mp he).2

theorem Complete.of_finish (h : Indexed adds data (index ++ sc.pending) sc.last) (hAhead : Ahead adds data sc)
    (hEmpty : sc.remaining = []) : Complete adds data (index ++ sc.pending) := by
  intro x
  rw [h.entry_iff]
  constructor
  · rintro ⟨k, r, hr, _, hx⟩
    exact ⟨k, r, hr, hx⟩
  · rintro ⟨k, r, hr, hx⟩
    refine ⟨k, r, hr, ?_, hx⟩
    by_contra hPassed
    have hNoEnd : ∀ e, batchEnd sc = some e → k ≤ e := by
      intro e hEnd
      simp [batchEnd, hEmpty] at hEnd
    obtain ⟨r', hr', _⟩ := (hAhead.agree k hPassed hNoEnd).exists_entry hr
    rw [hEmpty] at hr'
    cases hr'

end Steps

section Runs

variable [LinearOrder π] [DecidableEq κ] {adds : List (IndexDef ρ κ)}

theorem step_inv {w w' : World π ρ κ} {a : Action π ρ} (h : Inv adds w) (hGuard : WriteSettled adds w a)
    (hStep : step adds w a = some w') : Inv adds w' := by
  cases a with
  | write k v =>
    rw [step] at hStep
    split at hStep
    · cases hStep
    · cases hStep
      exact inv_write h hGuard
  | beginScan =>
    obtain ⟨data, index, phase⟩ := w
    cases phase <;> cases hStep
    obtain rfl : index = [] := h
    refine ⟨⟨fun x => ?_, fun l hl => by cases hl⟩, ⟨fun k _ _ => AgreeAt.refl adds _ k, fun e _ => ?_, data.sorted⟩⟩
    · constructor
      · intro hx
        cases hx
      · rintro ⟨k, r, _, ⟨l, hl, _⟩, _⟩
        cases hl
    · rintro ⟨l, hl, _⟩
      cases hl
  | visit =>
    obtain ⟨data, index, phase⟩ := w
    cases phase with
    | scanning sc =>
      simp only [step] at hStep
      split at hStep
      · cases hStep
      · rename_i k r rest hRemaining
        split at hStep
        · cases hStep
          trivial
        · split at hStep
          · cases hStep
            exact Indexed.visited h.1 h.2 hRemaining
          · rename_i hBatch
            cases hStep
            exact ⟨Indexed.visited h.1 h.2 hRemaining, h.2.visited hRemaining hBatch⟩
    | prepared | boundary | built | aborted | altered => cases hStep
  | reseek seekOk =>
    obtain rfl : seekOk = true := hGuard
    obtain ⟨data, index, phase⟩ := w
    cases phase with
    | boundary sc =>
      simp only [step] at hStep
      split at hStep
      · cases hStep
      · rename_i l hl
        cases hStep
        obtain ⟨r, hr⟩ := Indexed.last_mem h l hl
        refine ⟨?_, Ahead.reseek hl hr⟩
        rw [append_nil]
        exact h
    | prepared | scanning | built | aborted | altered => cases hStep
  | finish =>
    obtain ⟨data, index, phase⟩ := w
    cases phase with
    | scanning sc =>
      simp only [step] at hStep
      split at hStep
      · rename_i hEmpty
        cases hStep
        exact Complete.of_finish h.1 h.2 (isEmpty_iff.mp hEmpty)
      · cases hStep
    | prepared | boundary | built | aborted | altered => cases hStep
  | fail =>
    obtain ⟨data, index, phase⟩ := w
    cases phase <;> cases hStep <;> trivial
  | commitAlter =>
    obtain ⟨data, index, phase⟩ := w
    cases phase <;> cases hStep
    exact h

theorem step_data {w w' : World π ρ κ} {a : Action π ρ} (hStep : step adds w a = some w')
    (hNot : ∀ k v, a ≠ .write k v) : w'.data = w.data := by
  cases a with
  | write k v => exact absurd rfl (hNot k v)
  | beginScan | visit | reseek | finish | fail | commitAlter =>
    simp only [step] at hStep
    repeat' split at hStep
    all_goals cases hStep
    all_goals rfl

end Runs

variable {adds : List (IndexDef ρ κ)}

theorem mem_rowEntries_iff {a : Nat} {d : IndexDef ρ κ} (ha : adds[a]? = some d) (hKind : d.kind = .ordinary)
    (key : κ) (k k' : π) (r : ρ) : (a, key, k) ∈ rowEntries adds k' r ↔ k = k' ∧ key = d.key r := by
  simp only [rowEntries, filled, List.mem_map, mem_filter, Prod.exists, mem_zipIdx_iff_getElem?,
    decide_eq_true_eq, Prod.mk.injEq]
  constructor
  · rintro ⟨d', a', ⟨hGet, _⟩, rfl, rfl, rfl⟩
    obtain rfl : d' = d := some.inj (hGet.symm.trans ha)
    exact ⟨rfl, rfl⟩
  · rintro ⟨rfl, rfl⟩
    exact ⟨d, a, ⟨ha, hKind⟩, rfl, rfl, rfl⟩

theorem Complete.mem_iff [LinearOrder π] {data : SortedMap π ρ} {entries : List (IndexEntry κ π)}
    (h : Complete adds data entries) {a : Nat} {d : IndexDef ρ κ} (ha : adds[a]? = some d)
    (hKind : d.kind = .ordinary) (key : κ) (k : π) :
    (a, key, k) ∈ entries ↔ ∃ r, (k, r) ∈ data.entries ∧ key = d.key r := by
  rw [h (a, key, k)]
  constructor
  · rintro ⟨k', r, hr, hx⟩
    obtain ⟨rfl, hKey⟩ := (mem_rowEntries_iff ha hKind key k k' r).mp hx
    exact ⟨r, hr, hKey⟩
  · rintro ⟨r, hr, hKey⟩
    exact ⟨k, r, hr, (mem_rowEntries_iff ha hKind key k k r).mpr ⟨rfl, hKey⟩⟩

theorem complete_of_reach [LinearOrder π] [DecidableEq κ] {data : SortedMap π ρ} {w : World π ρ κ}
    (h : Reach (step adds) (WriteSettled adds) (init data) w) (hDone : w.phase = .altered) :
    Complete adds w.data w.index := by
  have hInv : Inv adds w := h.invariant (Inv adds) rfl fun _ _ _ hInv hGuard hStep => step_inv hInv hGuard hStep
  rw [Inv, hDone] at hInv
  exact hInv

/-- When every write of other sessions is settled, each added index holds exactly one entry for every live row. -/
theorem index_complete_of_settled [LinearOrder π] [DecidableEq κ] (adds : List (IndexDef ρ κ)) (req : Request)
    (hAdded : req.added = adds.map IndexDef.kind) (hCheck : checkIfSupportedInplaceAlter req = .noLock)
    (data : SortedMap π ρ) (w : World π ρ κ) (h : Reach (step adds) (WriteSettled adds) (init data) w)
    (hDone : w.phase = .altered) (a : Nat) (d : IndexDef ρ κ) (ha : adds[a]? = some d) (key : κ) (k : π) :
    (a, key, k) ∈ w.index ↔ ∃ r, (k, r) ∈ w.data.entries ∧ key = d.key r := by
  have hKind : d.kind = .ordinary := by
    apply added_ordinary_of_noLock hCheck
    rw [hAdded]
    exact mem_map_of_mem (mem_of_getElem? ha)
  exact Complete.mem_iff (complete_of_reach h hDone) ha hKind key k

def valueIndex : IndexDef Nat Nat := ⟨['v'], .ordinary, id, fun _ => false, false⟩

def addValueIndex : Request := ⟨true, true, [.addIndex], [.ordinary]⟩

def oneRow : SortedMap Nat Nat := SortedMap.empty.set 5 50

def hundredRows : SortedMap Nat Nat := (range 100).foldl (fun m k => m.set k (k + 5)) SortedMap.empty

/-- The writes beyond the batch among those of `WriteSettled`. -/
def later (w : World Nat Nat Nat) : Action Nat Nat → Bool
  | .write k _ =>
    match w.phase with
    | .scanning sc => (batchEnd sc).any (· < k)
    | .boundary sc => sc.last.any (· < k)
    | _ => false
  | .reseek seekOk => seekOk
  | _ => true

theorem settled_of_later (w : World Nat Nat Nat) (act : Action Nat Nat) (h : later w act = true) :
    WriteSettled [valueIndex] w act := by
  cases act with
  | write k v =>
    refine Or.inr ?_
    rw [later] at h
    cases hPhase : w.phase with
    | scanning sc | boundary sc => simpa [hPhase, Option.any_eq_true] using h
    | prepared | built | aborted | altered => simp [hPhase] at h
  | reseek seekOk => exact h
  | beginScan | visit | finish | fail | commitAlter => trivial

/-- A row is written beyond the batch while the scan is in it, and another one at the batch's end. -/
def writesAhead : List (Action Nat Nat) :=
  [.beginScan, .write 200 (some 7)] ++ replicate 100 .visit ++
    [.write 150 (some 7), .reseek true, .visit, .visit, .finish, .commitAlter]

def wroteAhead (w : World Nat Nat Nat) : Bool :=
  (w.phase matches .altered) && [150, 200].all fun k => w.data.entries.any fun e => e.1 = k

theorem index_complete_writes_ahead : ∃ w : World Nat Nat Nat, wroteAhead w = true ∧
    ∀ key k, (0, key, k) ∈ w.index ↔ ∃ r, (k, r) ∈ w.data.entries ∧ key = valueIndex.key r := by
  have hRun : (guardedRun (step [valueIndex]) (fun w act => later w act = true) (init hundredRows) writesAhead).any
      wroteAhead = true := by decide +kernel
  obtain ⟨w, hReach, hWrote⟩ := reach_of_any_guardedRun hRun
  have hDone : w.phase = .altered := by
    cases hPhase : w.phase with
    | altered => rfl
    | _ => simp [wroteAhead, hPhase] at hWrote
  exact ⟨w, hWrote, index_complete_of_settled [valueIndex] addValueIndex rfl rfl hundredRows w
    (hReach.mono settled_of_later) hDone 0 valueIndex rfl⟩

/-- A row inserted below the scan's position while the scan runs gets no entry. -/
theorem insert_behind_scan_unindexed : ∃ w : World Nat Nat Nat,
    run (step [valueIndex]) (init oneRow) [.beginScan, .write 3 (some 30), .visit, .finish, .commitAlter] = some w ∧
      checkIfSupportedInplaceAlter addValueIndex = .noLock ∧ w.phase = .altered ∧
      (3, 30) ∈ w.data.entries ∧ (0, 30, 3) ∉ w.index :=
  ⟨_, rfl, rfl, rfl, by decide, by decide⟩

end TideSql.IndexBuild
