import Mathlib

/-!
# A cursor over a sorted list

A position is an element of the list or none.
-/

namespace Lib.Cursor
open List

inductive Verdict (γ : Type*) where
  | skip
  | stop (c : γ)
  | found

inductive Ending (κ γ : Type*) where
  | exhausted
  | stopped (k : κ) (c : γ)
  | found (k : κ)

variable {κ β γ : Type*}

/-- Visit the element at the position and move on as long as it is skipped. -/
def walk (move : κ → Option κ) (visit : β → κ → Verdict γ × β) : Nat → Option κ → β → Ending κ γ × β
  | _, none, b => (.exhausted, b)
  | 0, some _, b => (.exhausted, b)
  | n + 1, some k, b =>
    match visit b k with
    | (.skip, b') => walk move visit n (move k) b'
    | (.stop c, b') => (.stopped k c, b')
    | (.found, b') => (.found k, b')

def scan (visit : β → κ → Verdict γ × β) : List κ → β → Ending κ γ × β
  | [], b => (.exhausted, b)
  | k :: p, b =>
    match visit b k with
    | (.skip, b') => scan visit p b'
    | (.stop c, b') => (.stopped k c, b')
    | (.found, b') => (.found k, b')

def Skipped (visit : β → κ → Verdict γ × β) (x : κ) : Prop := ∃ b, (visit b x).1 = .skip

section Walk

variable {r : κ → κ → Prop} [DecidableRel r] [IsStrictOrder κ r] {l : List κ} {visit : β → κ → Verdict γ × β}

section

variable (hSorted : l.Pairwise r)
include hSorted

theorem find?_of_suffix {k : κ} {p : List κ} (hp : k :: p <:+ l) : l.find? (fun y => r k y) = p.head? := by
  obtain ⟨before, rfl⟩ := hp
  have hParts := pairwise_append.mp hSorted
  have hBefore : before.find? (fun y => r k y) = none := by
    rw [find?_eq_none]
    intro y hy hRel
    exact asymm_of r (hParts.2.2 y hy k (mem_cons_self ..)) (of_decide_eq_true hRel)
  rw [find?_append, hBefore, Option.none_or, find?_cons_of_neg (by simp [irrefl_of r k])]
  cases p with
  | nil => rfl
  | cons x p => exact find?_cons_of_pos (by simp [rel_of_pairwise_cons hParts.2.1 (mem_cons_self ..)])

theorem walk_eq_scan (p : List κ) (hp : p <:+ l) (n : Nat) (hn : p.length ≤ n) (b : β) :
    walk (fun k => l.find? fun y => r k y) visit n p.head? b = scan visit p b := by
  induction p generalizing n b with
  | nil => rw [head?_nil, walk, scan]
  | cons k p ih =>
    cases n with
    | zero => exact absurd hn (Nat.not_succ_le_zero _)
    | succ n =>
      rw [head?_cons, walk, scan]
      split
      · rename_i b' hVisit
        rw [find?_of_suffix hSorted hp]
        exact ih ((suffix_cons k p).trans hp) n (Nat.le_of_succ_le_succ hn) b'
      · rfl
      · rfl

omit [DecidableRel r] [IsStrictOrder κ r] in
theorem filter_suffix {q : κ → Bool} (hq : ∀ x ∈ l, ∀ y ∈ l, r x y → q x = true → q y = true) : l.filter q <:+ l := by
  induction l with
  | nil => exact suffix_rfl
  | cons a l ih =>
    obtain ⟨hHead, hTail⟩ := pairwise_cons.mp hSorted
    have hRest : ∀ x ∈ l, ∀ y ∈ l, r x y → q x = true → q y = true := fun x hx y hy =>
      hq x (mem_cons_of_mem _ hx) y (mem_cons_of_mem _ hy)
    cases hqa : q a with
    | true =>
      have hAll : l.filter q = l := by
        rw [filter_eq_self]
        exact fun y hy => hq a (mem_cons_self ..) y (mem_cons_of_mem _ hy) (hHead y hy) hqa
      exact ⟨[], by rw [nil_append, filter_cons_of_pos hqa, hAll]⟩
    | false =>
      rw [filter_cons_of_neg (by simp [hqa])]
      exact (ih hTail hRest).trans (suffix_cons a l)

theorem walk_find {q : κ → Bool} (hq : ∀ x ∈ l, ∀ y ∈ l, r x y → q x = true → q y = true) (b : β) :
    walk (fun k => l.find? fun y => r k y) visit l.length (l.find? q) b = scan visit (l.filter q) b := by
  rw [← head?_filter]
  exact walk_eq_scan hSorted _ (filter_suffix hSorted hq) _ (length_filter_le ..) b

end

omit [DecidableRel r] [IsStrictOrder κ r] in
theorem scan_cases (visit : β → κ → Verdict γ × β) (p : List κ) (b : β) :
    ((scan visit p b).1 = .exhausted ∧ ∀ x ∈ p, Skipped visit x) ∨
      ∃ before k rest b₁, p = before ++ k :: rest ∧ (∀ x ∈ before, Skipped visit x) ∧
        ((∃ c, visit b₁ k = (.stop c, (scan visit p b).2) ∧ (scan visit p b).1 = .stopped k c) ∨
          visit b₁ k = (.found, (scan visit p b).2) ∧ (scan visit p b).1 = .found k) := by
  induction p generalizing b with
  | nil => exact .inl ⟨rfl, fun x hx => absurd hx not_mem_nil⟩
  | cons k p ih =>
    rw [scan]
    split
    · rename_i b' hVisit
      have hSkip : Skipped visit k := ⟨b, by rw [hVisit]⟩
      obtain ⟨hEnd, hAll⟩ | ⟨before, k', rest, b₁, rfl, hBefore, hLast⟩ := ih b'
      · refine .inl ⟨hEnd, ?_⟩
        rintro x (_ | ⟨_, hx⟩)
        · exact hSkip
        · exact hAll x hx
      · refine .inr ⟨k :: before, k', rest, b₁, rfl, ?_, hLast⟩
        rintro x (_ | ⟨_, hx⟩)
        · exact hSkip
        · exact hBefore x hx
    · rename_i c b' hVisit
      exact .inr ⟨[], k, p, b, rfl, nofun, .inl ⟨c, hVisit, rfl⟩⟩
    · rename_i b' hVisit
      exact .inr ⟨[], k, p, b, rfl, nofun, .inr ⟨hVisit, rfl⟩⟩

omit [DecidableRel r] [IsStrictOrder κ r] in
theorem scan_append (visit : β → κ → Verdict γ × β) (p p' : List κ) (b : β) : scan visit (p ++ p') b =
      match scan visit p b with
      | (.exhausted, b') => scan visit p' b'
      | (.stopped k c, b') => (.stopped k c, b')
      | (.found k, b') => (.found k, b') := by
  induction p generalizing b with
  | nil => rfl
  | cons k p ih =>
    rw [cons_append, scan, scan]
    split
    · rename_i b' hVisit
      exact ih b'
    · rfl
    · rfl

omit [DecidableRel r] [IsStrictOrder κ r] in
theorem scan_taken {d : κ → Bool} {p : List κ}
    (h : ∀ b, ∀ k ∈ p, (visit b k).1 = if d k then .found else .skip) (b : β) :
    (p.find? d = none ∧ ∃ b', scan visit p b = (.exhausted, b')) ∨
      ∃ k b₁, p.find? d = some k ∧ scan visit p b = (.found k, (visit b₁ k).2) := by
  induction p generalizing b with
  | nil => exact .inl ⟨rfl, b, rfl⟩
  | cons k p ih =>
    have hHead := h b k mem_cons_self
    rw [scan]
    cases hd : d k with
    | true =>
      rw [hd, if_pos rfl] at hHead
      refine .inr ⟨k, b, find?_cons_of_pos hd, ?_⟩
      obtain ⟨v, b', hVisit⟩ : ∃ v b', visit b k = (v, b') := ⟨_, _, rfl⟩
      rw [hVisit] at hHead ⊢
      cases hHead
      rfl
    | false =>
      rw [hd, if_neg Bool.false_ne_true] at hHead
      rw [find?_cons_of_neg (by simp [hd])]
      obtain ⟨v, b', hVisit⟩ : ∃ v b', visit b k = (v, b') := ⟨_, _, rfl⟩
      rw [hVisit] at hHead ⊢
      cases hHead
      exact ih (fun b k hk => h b k (mem_cons_of_mem _ hk)) b'

def WalkEnds (r : κ → κ → Prop) (l : List κ) (visit : β → κ → Verdict γ × β) (q : κ → Bool)
    (res : Ending κ γ × β) : Prop :=
  (res.1 = .exhausted ∧ ∀ x ∈ l, q x = true → Skipped visit x) ∨
    ∃ k b, k ∈ l ∧ q k = true ∧ (∀ x ∈ l, q x = true → r x k → Skipped visit x) ∧
      ((∃ c, visit b k = (.stop c, res.2) ∧ res.1 = .stopped k c) ∨ visit b k = (.found, res.2) ∧ res.1 = .found k)

theorem walk_ends (visit : β → κ → Verdict γ × β) {q : κ → Bool} (hSorted : l.Pairwise r)
    (hq : ∀ x ∈ l, ∀ y ∈ l, r x y → q x = true → q y = true) (b : β) :
    WalkEnds r l visit q (walk (fun k => l.find? fun y => r k y) visit l.length (l.find? q) b) := by
  rw [walk_find hSorted hq]
  obtain ⟨hEnd, hAll⟩ | ⟨before, k, rest, b₁, hPath, hBefore, hLast⟩ := scan_cases visit (l.filter q) b
  · exact .inl ⟨hEnd, fun x hx hqx => hAll x (mem_filter.mpr ⟨hx, hqx⟩)⟩
  · have hk : k ∈ l.filter q := hPath ▸ mem_append_right _ (mem_cons_self ..)
    obtain ⟨hMem, hqk⟩ := mem_filter.mp hk
    refine .inr ⟨k, b₁, hMem, hqk, fun x hx hqx hRel => ?_, hLast⟩
    have hx : x ∈ before ++ k :: rest := hPath ▸ mem_filter.mpr ⟨hx, hqx⟩
    have hParts := hPath ▸ hSorted.filter q
    obtain hx | hx := mem_append.mp hx
    · exact hBefore x hx
    · obtain rfl | hx := mem_cons.mp hx
      · exact absurd hRel (irrefl_of r x)
      · exact absurd hRel (asymm_of r (rel_of_pairwise_cons (pairwise_append.mp hParts).2.1 hx))

end Walk

section Ordered

variable [LinearOrder κ]

def atLeast (k x : κ) : Bool := k ≤ x
def atMost (k x : κ) : Bool := x ≤ k
def above (k x : κ) : Bool := k < x
def below (k x : κ) : Bool := x < k

@[simp] theorem atLeast_iff {k x : κ} : atLeast k x = true ↔ k ≤ x := decide_eq_true_iff
@[simp] theorem atMost_iff {k x : κ} : atMost k x = true ↔ x ≤ k := decide_eq_true_iff
@[simp] theorem above_iff {k x : κ} : above k x = true ↔ k < x := decide_eq_true_iff
@[simp] theorem below_iff {k x : κ} : below k x = true ↔ x < k := decide_eq_true_iff

section

variable (k x y : κ) (hLt : x < y)
include hLt

theorem atLeast_up (hx : atLeast k x = true) : atLeast k y = true :=
  atLeast_iff.mpr ((atLeast_iff.mp hx).trans hLt.le)

theorem above_up (hx : above k x = true) : above k y = true :=
  above_iff.mpr ((above_iff.mp hx).trans hLt)

theorem atMost_down (hy : atMost k y = true) : atMost k x = true :=
  atMost_iff.mpr (hLt.le.trans (atMost_iff.mp hy))

theorem below_down (hy : below k y = true) : below k x = true :=
  below_iff.mpr (hLt.trans (below_iff.mp hy))

end

variable (l : List κ)

def seek (k : κ) : Option κ := l.find? (atLeast k)

def seekForPrev (k : κ) : Option κ := l.reverse.find? (atMost k)

def next (k : κ) : Option κ := l.find? (above k)

def prev (k : κ) : Option κ := l.reverse.find? (below k)

def walkForward (visit : β → κ → Verdict γ × β) (pos : Option κ) (b : β) : Ending κ γ × β :=
  walk (next l) visit l.length pos b

def walkBackward (visit : β → κ → Verdict γ × β) (pos : Option κ) (b : β) : Ending κ γ × β :=
  walk (prev l) visit l.length pos b

def Before (backward : Bool) (x y : κ) : Prop := if backward then y < x else x < y

variable {l} {q : κ → Bool}

section

variable (visit : β → κ → Verdict γ × β) (hSorted : l.Pairwise (· < ·))
include hSorted

theorem walkForward_find (hq : ∀ x y, x < y → q x = true → q y = true) (b : β) :
    walkForward l visit (l.find? q) b = scan visit (l.filter q) b :=
  walk_find hSorted (fun x _ y _ => hq x y) b

theorem walkBackward_find (hq : ∀ x y, x < y → q y = true → q x = true) (b : β) :
    walkBackward l visit (l.reverse.find? q) b = scan visit (l.filter q).reverse b := by
  have hReverse : l.reverse.Pairwise (· > ·) := pairwise_reverse.mpr hSorted
  rw [walkBackward, ← length_reverse, ← filter_reverse]
  exact walk_find hReverse (fun x _ y _ hGt => hq y x hGt) b

theorem walkForward_next (hq : ∀ x y, x < y → q x = true → q y = true) {x : κ} {rest : List κ}
    (hFilter : l.filter q = x :: rest) (b : β) : walkForward l visit (next l x) b = scan visit rest b := by
  have hSuffix : x :: rest <:+ l := hFilter ▸ filter_suffix hSorted fun y _ z _ => hq y z
  have hRest : rest <:+ l := (suffix_cons x rest).trans hSuffix
  have hNext : next l x = rest.head? := find?_of_suffix hSorted hSuffix
  rw [walkForward, hNext]
  exact walk_eq_scan hSorted rest hRest l.length hRest.length_le b

theorem walkForward_of_suffix {p : List κ} (hp : p <:+ l) (b : β) : walkForward l visit p.head? b = scan visit p b :=
  walk_eq_scan hSorted p hp _ hp.length_le b

omit visit in
theorem next_of_suffix {k : κ} {p : List κ} (hp : k :: p <:+ l) : next l k = p.head? := find?_of_suffix hSorted hp

theorem walkForward_ends (hq : ∀ x y, x < y → q x = true → q y = true) (b : β) :
    WalkEnds (Before false) l visit q (walkForward l visit (l.find? q) b) :=
  walk_ends visit hSorted (fun x _ y _ => hq x y) b

theorem walkBackward_ends (hq : ∀ x y, x < y → q y = true → q x = true) (b : β) :
    WalkEnds (Before true) l visit q (walkBackward l visit (l.reverse.find? q) b) := by
  have hReverse : l.reverse.Pairwise (· > ·) := pairwise_reverse.mpr hSorted
  have hEnds := walk_ends visit hReverse (fun x _ y _ hGt => hq y x hGt) b
  simp only [WalkEnds, mem_reverse, length_reverse] at hEnds
  exact hEnds

end

omit [LinearOrder κ] in
theorem scan_find (d : κ → Bool) (g : κ → β) (p : List κ) (b : β) :
    scan (γ := γ) (fun b k => if d k then (.found, g k) else (.skip, b)) p b = match p.find? d with
      | some k => (.found k, g k)
      | none => (.exhausted, b) := by
  induction p with
  | nil => rfl
  | cons k p ih =>
    rw [scan]
    cases hd : d k with
    | true => simp [hd]
    | false => simpa [hd] using ih

omit [LinearOrder κ] in
theorem filter_append_filter {r : κ → κ → Prop} {p : κ → Bool} (hSorted : l.Pairwise r)
    (hp : ∀ x ∈ l, ∀ y ∈ l, r x y → p y = true → p x = true) : l.filter p ++ l.filter (fun x => !p x) = l := by
  induction l with
  | nil => rfl
  | cons a l ih =>
    obtain ⟨hHead, hTail⟩ := pairwise_cons.mp hSorted
    cases hpa : p a with
    | true =>
      have hRest := ih hTail fun x hx y hy => hp x (mem_cons_of_mem a hx) y (mem_cons_of_mem a hy)
      rw [filter_cons_of_pos hpa, filter_cons_of_neg (by simp [hpa]), cons_append, hRest]
    | false =>
      have hNot : ∀ x ∈ l, ¬p x = true := fun x hx hpx => by
        simpa [hpa] using hp a mem_cons_self x (mem_cons_of_mem a hx) (hHead x hx) hpx
      have hNone : l.filter p = [] := filter_eq_nil_iff.mpr hNot
      have hAll : l.filter (fun x => !p x) = l := by
        rw [filter_eq_self]
        intro x hx
        simp [hNot x hx]
      rw [filter_cons_of_neg (by simp [hpa]), filter_cons_of_pos (by simp [hpa]), hNone, hAll, nil_append]

omit [LinearOrder κ] in
theorem find?_reverse (p : κ → Bool) : l.reverse.find? p = (l.filter p).getLast? := by
  rw [← head?_filter, filter_reverse, head?_reverse]

omit [LinearOrder κ] in
theorem find?_of_ne {p : κ → Bool} {k : κ} (hSame : ∀ y, y ≠ k → p y = q y) (hk : q k = false)
    (hNe : l.find? p ≠ some k) : l.find? p = l.find? q := by
  induction l with
  | nil => rfl
  | cons a l ih =>
    rw [find?_cons] at hNe
    cases hp : p a with
    | true =>
      rw [hp] at hNe
      have hne : a ≠ k := fun hEq => hNe (congrArg some hEq)
      rw [find?_cons_of_pos hp, find?_cons_of_pos (hSame a hne ▸ hp)]
    | false =>
      rw [hp] at hNe
      have hq : q a = false := by
        by_cases hEq : a = k
        · rw [hEq, hk]
        · rw [← hSame a hEq, hp]
      rw [find?_cons_of_neg (by simp [hp]), find?_cons_of_neg (by simp [hq]), ih hNe]

theorem seek_of_ne {k : κ} (hNe : seek l k ≠ some k) : seek l k = l.find? (above k) := by
  refine find?_of_ne (fun y hy => ?_) (decide_eq_false (lt_irrefl k)) hNe
  exact decide_eq_decide.mpr ⟨fun h => lt_of_le_of_ne h (Ne.symm hy), le_of_lt⟩

theorem seekForPrev_of_ne {k : κ} (hNe : seekForPrev l k ≠ some k) : seekForPrev l k = l.reverse.find? (below k) := by
  refine find?_of_ne (fun y hy => ?_) (decide_eq_false (lt_irrefl k)) hNe
  exact decide_eq_decide.mpr ⟨fun h => lt_of_le_of_ne h hy, le_of_lt⟩

theorem walkForward_reverse_find (visit : β → κ → Verdict γ × β) (hSorted : l.Pairwise (· < ·))
    (hq : ∀ x y, x < y → q y = true → q x = true) (b : β) :
    walkForward l visit (l.reverse.find? q) b = match (l.filter q).getLast? with
      | some k => scan visit (k :: l.filter fun x => !q x) b
      | none => (.exhausted, b) := by
  rw [find?_reverse]
  cases hLast : (l.filter q).getLast? with
  | none => rw [walkForward, walk]
  | some k =>
    obtain ⟨before, hBefore⟩ := getLast?_eq_some_iff.mp hLast
    have hSuffix : (k :: l.filter fun x => !q x) <:+ l := by
      refine ⟨before, ?_⟩
      rw [← singleton_append, ← append_assoc, ← hBefore, filter_append_filter hSorted fun x _ y _ => hq x y]
    exact walk_eq_scan hSorted (k :: l.filter fun x => !q x) hSuffix l.length hSuffix.length_le b

theorem find?_ge_of_mem (hSorted : l.Pairwise (· < ·)) {k : κ} (hk : k ∈ l) : l.find? (atLeast k) = some k := by
  obtain ⟨before, after, rfl⟩ := append_of_mem hk
  have hBefore : before.find? (atLeast k) = none := by
    rw [find?_eq_none]
    intro x hx hLe
    have hLt := (pairwise_append.mp hSorted).2.2 x hx k (mem_cons_self ..)
    exact absurd (atLeast_iff.mp hLe) (not_le.mpr hLt)
  rw [find?_append, hBefore, Option.none_or, find?_cons_of_pos (atLeast_iff.mpr le_rfl)]

end Ordered

end Lib.Cursor
