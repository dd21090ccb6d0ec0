import TideSql.Lib.Program

/-!
# Calls whose answers are looked at, and calls whose answers are not

A program that makes a fixed sequence of calls ends early at the first failure of a call whose answer it looks
at, and goes on past the others.
-/

namespace Lib.Issue
open Lib.Program List

structure Step (ε : Type) where
  call : ε
  checked : Bool

structure Issued (ε : Type) where
  made : List ε
  failed : Bool

variable {ε ρ α β ι : Type}

section Model

variable (ok : ρ)

def ignoreAll : List ε → Prog ε (fun _ => ρ) ρ
  | [] => .ret ok
  | e :: es => .call e fun _ => ignoreAll es

/-- The program makes the calls of the plan in order. It ends well when none that is checked fails, and badly
at the first that does. -/
def Follows (Good Bad : α → Prop) : List (Step ε) → Prog ε (fun _ => ρ) α → Prop
  | [], .ret a => Good a
  | x :: xs, .call e next => e = x.call ∧ ∀ reply,
    (reply = ok ∨ x.checked = false → Follows Good Bad xs (next reply)) ∧
      (reply ≠ ok → x.checked = true → ∃ a, next reply = .ret a ∧ Bad a)
  | _, _ => False

variable [DecidableEq ρ]

def checkAll : List ε → Prog ε (fun _ => ρ) ρ
  | [] => .ret ok
  | e :: es => .call e fun rc => if rc = ok then checkAll es else .ret rc

/-- The programs in order, up to the first that does not answer `ok`. -/
def walkRc (f : ι → Prog ε (fun _ => ρ) ρ) : List ι → Prog ε (fun _ => ρ) ρ
  | [] => .ret ok
  | x :: xs => (f x).bind fun rc => if rc = ok then walkRc f xs else .ret rc

def issue (e : ε) (reply : ρ) (s : Issued ε) : ρ × Issued ε :=
  (reply, if reply = ok then { s with made := s.made ++ [e] } else { s with failed := true })

def Faithful (Good : α → Prop) (p : Prog ε (fun _ => ρ) α) (replies : List ρ) : Prop :=
  ∃ a, (exec (issue ok) p replies ⟨[], false⟩).1 = some a ∧ (Good a → (exec (issue ok) p replies ⟨[], false⟩).2.made =
      (exec (issue ok) p (List.replicate replies.length ok) ⟨[], false⟩).2.made) ∧
    ((exec (issue ok) p replies ⟨[], false⟩).2.failed = true → ¬Good a)

end Model

section Follows

variable {ok : ρ} {Good Bad : α → Prop} {Good' Bad' : β → Prop} {xs ys : List (Step ε)}
  {p : Prog ε (fun _ => ρ) α} {f : α → Prog ε (fun _ => ρ) β}

theorem Follows.bind (h : Follows ok Good Bad xs p) (hGood : ∀ a, Good a → Follows ok Good' Bad' ys (f a))
    (hBad : ∀ a, Bad a → ∃ b, f a = .ret b ∧ Bad' b) : Follows ok Good' Bad' (xs ++ ys) (p.bind f) := by
  induction xs generalizing p with
  | nil =>
    cases p with
    | ret a => exact hGood a h
    | call e next => exact h.elim
  | cons x xs ih =>
    cases p with
    | ret a => exact h.elim
    | call e next =>
      refine ⟨h.1, fun reply => ⟨fun hOn => ih ((h.2 reply).1 hOn), fun hFails hChecked => ?_⟩⟩
      obtain ⟨a, hRet, ha⟩ := (h.2 reply).2 hFails hChecked
      obtain ⟨b, hf, hb⟩ := hBad a ha
      refine ⟨b, ?_, hb⟩
      change (next reply).bind f = .ret b
      rw [hRet]
      exact hf

theorem follows_ignoreAll (Bad : ρ → Prop) (calls : List ε) :
    Follows ok (· = ok) Bad (calls.map fun e => ⟨e, false⟩) (ignoreAll ok calls) := by
  induction calls with
  | nil => exact rfl
  | cons e es ih => exact ⟨rfl, fun reply => ⟨fun _ => ih, fun _ hChecked => by cases hChecked⟩⟩

variable [DecidableEq ρ]

theorem follows_checkAll (calls : List ε) :
    Follows ok (· = ok) (· ≠ ok) (calls.map fun e => ⟨e, true⟩) (checkAll ok calls) := by
  induction calls with
  | nil => exact rfl
  | cons e es ih =>
    refine ⟨rfl, fun reply => ⟨fun hOn => ?_, fun hFails _ => ⟨reply, if_neg hFails, hFails⟩⟩⟩
    have hOk : reply = ok := hOn.resolve_right Bool.true_eq_false.mp
    dsimp only
    rw [if_pos hOk]
    exact ih

theorem follows_walkRc {g : ι → Prog ε (fun _ => ρ) ρ} {plan : ι → List (Step ε)} {l : List ι}
    (h : ∀ x ∈ l, Follows ok (· = ok) (· ≠ ok) (plan x) (g x)) :
    Follows ok (· = ok) (· ≠ ok) (l.flatMap plan) (walkRc ok g l) := by
  induction l with
  | nil => exact rfl
  | cons x xs ih =>
    rw [flatMap_cons]
    refine (h x mem_cons_self).bind (fun rc hOk => ?_) fun rc hFails => ⟨rc, if_neg hFails, hFails⟩
    rw [if_pos hOk]
    exact ih fun y hy => h y (mem_cons_of_mem x hy)

section

variable (h : Follows ok Good Bad xs p)
include h

theorem Follows.exec_good {replies : List ρ} (hLength : xs.length ≤ replies.length)
    (hOk : ∀ z ∈ xs.zip replies, z.1.checked = true → z.2 = ok) (s : Issued ε) :
    ∃ a, Good a ∧ exec (issue ok) p replies s = (some a, ⟨s.made ++ ((xs.zip replies).filter (·.2 = ok)).map (·.1.call),
        s.failed || (xs.zip replies).any (·.2 ≠ ok)⟩) := by
  induction xs generalizing p replies s with
  | nil =>
    cases p with
    | ret a => exact ⟨a, h, by simp [exec]⟩
    | call e next => exact h.elim
  | cons x xs ih =>
    cases p with
    | ret a => exact h.elim
    | call e next =>
      obtain _ | ⟨reply, replies⟩ := replies
      · exact absurd hLength (by simp)
      · rw [zip_cons_cons] at hOk ⊢
        have hOn : reply = ok ∨ x.checked = false := by
          by_cases hChecked : x.checked = true
          · exact .inl (hOk _ mem_cons_self hChecked)
          · exact .inr (Bool.not_eq_true _ ▸ hChecked)
        obtain ⟨a, ha, hExec⟩ := ih ((h.2 reply).1 hOn) (Nat.le_of_succ_le_succ hLength)
          (fun z hz => hOk z (mem_cons_of_mem _ hz)) (issue ok e reply s).2
        refine ⟨a, ha, ?_⟩
        rw [exec]
        refine hExec.trans ?_
        obtain rfl := h.1
        by_cases hReply : reply = ok
        · simp [issue, hReply]
        · simp [issue, hReply]

theorem Follows.exec_bad {replies : List ρ} (hFails : ∃ z ∈ xs.zip replies, z.1.checked = true ∧ z.2 ≠ ok)
    (s : Issued ε) : ∃ a, Bad a ∧ (exec (issue ok) p replies s).1 = some a := by
  induction xs generalizing p replies s with
  | nil =>
    obtain ⟨z, hz, -⟩ := hFails
    cases hz
  | cons x xs ih =>
    cases p with
    | ret a => exact h.elim
    | call e next =>
      obtain ⟨z, hz, hChecked, hNe⟩ := hFails
      obtain _ | ⟨reply, replies⟩ := replies
      · cases hz
      · rw [exec]
        by_cases hHere : x.checked = true ∧ reply ≠ ok
        · obtain ⟨a, hRet, ha⟩ := (h.2 reply).2 hHere.2 hHere.1
          refine ⟨a, ha, ?_⟩
          change (exec (issue ok) (next reply) replies _).1 = some a
          rw [hRet, exec]
        · rw [zip_cons_cons, mem_cons] at hz
          obtain rfl | hz := hz
          · exact absurd ⟨hChecked, hNe⟩ hHere
          · refine ih ((h.2 reply).1 ?_) ⟨z, hz, hChecked, hNe⟩ _
            by_contra hNot
            rw [not_or, Bool.not_eq_false] at hNot
            exact hHere ⟨hNot.2, hNot.1⟩

theorem Follows.exec_ends {replies : List ρ} (hLength : xs.length ≤ replies.length) (s : Issued ε) :
    ∃ a, (Good a ∨ Bad a) ∧ (exec (issue ok) p replies s).1 = some a := by
  by_cases hSeen : ∃ z ∈ xs.zip replies, z.1.checked = true ∧ z.2 ≠ ok
  · obtain ⟨a, ha, hExec⟩ := h.exec_bad hSeen s
    exact ⟨a, .inr ha, hExec⟩
  · have hOk : ∀ z ∈ xs.zip replies, z.1.checked = true → z.2 = ok := by
      intro z hz hChecked
      by_contra hNe
      exact hSeen ⟨z, hz, hChecked, hNe⟩
    obtain ⟨a, ha, hExec⟩ := h.exec_good hLength hOk s
    exact ⟨a, .inl ha, congrArg Prod.fst hExec⟩

theorem Follows.exec_ok {replies : List ρ} (hLength : xs.length ≤ replies.length)
    (hOk : ∀ z ∈ xs.zip replies, z.2 = ok) :
    ∃ a, Good a ∧ exec (issue ok) p replies ⟨[], false⟩ = (some a, ⟨xs.map Step.call, false⟩) := by
  obtain ⟨a, ha, hExec⟩ := h.exec_good hLength (fun z hz _ => hOk z hz) ⟨[], false⟩
  refine ⟨a, ha, hExec.trans ?_⟩
  have hFilter : (xs.zip replies).filter (·.2 = ok) = xs.zip replies :=
    List.filter_eq_self.mpr fun z hz => decide_eq_true (hOk z hz)
  have hAny : (xs.zip replies).any (·.2 ≠ ok) = false := by
    rw [any_eq_false]
    intro z hz
    simpa using hOk z hz
  have hCalls : (xs.zip replies).map (·.1.call) = xs.map Step.call := by
    rw [← Function.comp_def Step.call, ← map_map, map_fst_zip hLength]
  rw [hFilter, hAny, hCalls, nil_append, Bool.or_false]

theorem Follows.faithful_iff (hApart : ∀ a, Bad a → ¬Good a) {replies : List ρ} (hLength : xs.length ≤ replies.length) :
    Faithful ok Good p replies ↔ ((∃ z ∈ xs.zip replies, z.2 ≠ ok) →
      ∃ z ∈ xs.zip replies, z.1.checked = true ∧ z.2 ≠ ok) := by
  by_cases hSeen : ∃ z ∈ xs.zip replies, z.1.checked = true ∧ z.2 ≠ ok
  · obtain ⟨a, ha, hExec⟩ := h.exec_bad hSeen ⟨[], false⟩
    exact ⟨fun _ _ => hSeen, fun _ => ⟨a, hExec, fun hGood => absurd hGood (hApart a ha), fun _ => hApart a ha⟩⟩
  · have hOk : ∀ z ∈ xs.zip replies, z.1.checked = true → z.2 = ok := by
      intro z hz hChecked
      by_contra hNe
      exact hSeen ⟨z, hz, hChecked, hNe⟩
    obtain ⟨a, ha, hExec⟩ := h.exec_good hLength hOk ⟨[], false⟩
    constructor
    · rintro ⟨a', ha', -, hFailed⟩ ⟨z, hz, hNe⟩
      rw [hExec] at ha' hFailed
      cases ha'
      refine absurd ha (hFailed ?_)
      rw [Bool.false_or, any_eq_true]
      exact ⟨z, hz, by simpa using hNe⟩
    · intro hCondition
      have hNone : ∀ z ∈ xs.zip replies, z.2 = ok := by
        intro z hz
        by_contra hNe
        exact hSeen (hCondition ⟨z, hz, hNe⟩)
      obtain ⟨a, ha, hExec⟩ := h.exec_ok hLength hNone
      have hAll : xs.length ≤ (replicate replies.length ok).length := by rwa [length_replicate]
      obtain ⟨b, -, hIdeal⟩ := h.exec_ok hAll fun z hz => eq_of_mem_replicate (of_mem_zip hz).2
      refine ⟨a, by rw [hExec], fun _ => by rw [hExec, hIdeal], fun hFailed => ?_⟩
      rw [hExec] at hFailed
      cases hFailed

end

end Follows

end Lib.Issue
