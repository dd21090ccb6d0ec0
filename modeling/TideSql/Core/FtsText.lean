import Mathlib
import TideSql.Core.SortKey

/-!
# Words of a text

`tokenize` walks a text character by character and emits each word, and each part of a word that blend characters cut.
-/

namespace TideSql.FtsText
open SortKey List

structure Charset where
  /-- Given the bytes up to the end of the text; 0 stands for a single-byte character. -/
  mbcharLen : Bytes → Nat
  isAlnum : UInt8 → Bool
  casedn : Bytes → Bytes

structure TokenizeOpts where
  minWordLen : Nat
  maxWordLen : Nat
  blendMap : UInt8 → Bool
  stopwords : Bytes → Bool

/-- What one turn of a loop moves over: `p += mb` or `p++`. -/
inductive Character where
  | multi (bytes : Bytes)
  | single (b : UInt8)
  deriving DecidableEq, Repr

def Character.bytes : Character → Bytes
  | multi bytes => bytes
  | single b => [b]

def text (cs : List Character) : Bytes := cs.flatMap Character.bytes

@[simp] theorem text_nil : text [] = [] := rfl

@[simp] theorem text_cons (c : Character) (l : List Character) : text (c :: l) = c.bytes ++ text l := rfl

@[simp] theorem text_append (l l' : List Character) : text (l ++ l') = text l ++ text l' := flatMap_append

section Tokenize

variable (cs : Charset) (opts : TokenizeOpts)

def charactersLoop : Nat → Bytes → List Character
  | 0, _ => []
  | _, [] => []
  | n + 1, b :: p =>
    match cs.mbcharLen (b :: p) with
    | 0 => .single b :: charactersLoop n p
    | m + 1 => .multi ((b :: p).take (m + 1)) :: charactersLoop n (p.drop m)

def characters (p : Bytes) : List Character := charactersLoop cs p.length p

def charCount (p : Bytes) : Nat := (characters cs p).length

def emitToken (p : Bytes) : Option Bytes :=
  if p.length = 0 then none
  else if charCount cs p < opts.minWordLen ∨ opts.maxWordLen < charCount cs p then none
  else if opts.stopwords (cs.casedn p) then none
  else some (cs.casedn p)

def isWord : Character → Bool
  | .multi _ => true
  | .single b => cs.isAlnum b || opts.blendMap b

def isBlend : Character → Bool
  | .multi _ => false
  | .single b => !cs.isAlnum b && opts.blendMap b

/-- The words with the offset of each. No word has begun yet while the loop skips separators. -/
def wordsLoop (start : Nat) (word : List Character) : List Character → List (Nat × List Character)
  | [] => [(start, word)]
  | c :: l =>
    if isWord cs opts c then wordsLoop start (word ++ [c]) l
    else (start, word) :: wordsLoop (start + (text word).length + c.bytes.length) [] l

def words (l : List Character) : List (Nat × List Character) := wordsLoop cs opts 0 [] l

structure Span where
  start : Nat
  bytes : Bytes
  deriving DecidableEq, Repr

def parts (subStart : Nat) (sub : Bytes) : Bytes → List Span
  | [] => [⟨subStart, sub⟩]
  | b :: s =>
    if opts.blendMap b then ⟨subStart, sub⟩ :: parts (subStart + sub.length + 1) [] s
    else parts subStart (sub ++ [b]) s

def wordSpans (w : Nat × List Character) : List Span :=
  ⟨w.1, text w.2⟩ :: if w.2.any (isBlend cs opts) then parts opts w.1 [] (text w.2) else []

def spans (p : Bytes) : List Span := (words cs opts (characters cs p)).flatMap (wordSpans cs opts)

def tokenize (p : Bytes) : List Bytes := (spans cs opts p).filterMap fun s => emitToken cs opts s.bytes

end Tokenize

def phraseInTokens (docTokens phraseWords : List Bytes) : Bool :=
  if phraseWords.isEmpty then true
  else if docTokens.length < phraseWords.length then false
  else (range (docTokens.length - phraseWords.length + 1)).any fun i =>
    (range phraseWords.length).all fun j => docTokens[i + j]? == phraseWords[j]?

theorem phraseInTokens_iff {docTokens phraseWords : List Bytes} :
    phraseInTokens docTokens phraseWords = true ↔ phraseWords <:+: docTokens := by
  rw [phraseInTokens, infix_iff_getElem?]
  by_cases hEmpty : phraseWords = []
  · subst hEmpty
    exact iff_of_true rfl ⟨0, Nat.zero_le _, nofun⟩
  · rw [if_neg (by simpa using hEmpty)]
    split
    · rename_i hShort
      refine iff_of_false Bool.false_ne_true ?_
      rintro ⟨k, hk, -⟩
      omega
    · rename_i hLong
      simp only [any_eq_true, all_eq_true, mem_range, beq_iff_eq]
      constructor
      · rintro ⟨i, hi, hAll⟩
        refine ⟨i, by omega, fun j hj => ?_⟩
        rw [Nat.add_comm, hAll j hj, getElem?_eq_getElem hj]
      · rintro ⟨k, hk, hAll⟩
        refine ⟨k, by omega, fun j hj => ?_⟩
        rw [Nat.add_comm, hAll j hj, getElem?_eq_getElem hj]

section Characters

variable {cs : Charset}

def Whole (cs : Charset) : Character → Prop
  | .single b => ∀ p, cs.mbcharLen (b :: p) = 0
  | .multi c => c ≠ [] ∧ ∀ p, cs.mbcharLen (c ++ p) = c.length

theorem charactersLoop_eq (n m : Nat) (p : Bytes) (hn : p.length ≤ n) (hm : p.length ≤ m) :
    charactersLoop cs n p = charactersLoop cs m p := by
  induction n generalizing m p with
  | zero =>
    rw [eq_nil_of_length_eq_zero (Nat.le_zero.mp hn)]
    cases m <;> rfl
  | succ n ih =>
    cases p with
    | nil => cases m <;> rfl
    | cons b p =>
      cases m with
      | zero => exact absurd hm (by simp)
      | succ m =>
        rw [length_cons] at hn hm
        rw [charactersLoop, charactersLoop]
        split
        · rw [ih m p (by omega) (by omega)]
        · rename_i k hk
          rw [ih m (p.drop k) (by rw [length_drop]; omega) (by rw [length_drop]; omega)]

theorem characters_append {c : Character} (hc : Whole cs c) (p : Bytes) :
    characters cs (c.bytes ++ p) = c :: characters cs p := by
  cases c with
  | single b =>
    simp only [Character.bytes, singleton_append, characters, length_cons, charactersLoop]
    rw [hc p]
  | multi c =>
    obtain ⟨b, c, rfl⟩ := exists_cons_of_ne_nil hc.1
    have hLen := hc.2 p
    simp only [Character.bytes, cons_append, characters, length_cons, charactersLoop] at hLen ⊢
    rw [hLen]
    simp only [take_succ_cons, take_left', drop_left']
    rw [charactersLoop_eq _ p.length p (by simp) le_rfl]

theorem characters_text {l : List Character} (hl : ∀ c ∈ l, Whole cs c) (p : Bytes) :
    characters cs (text l ++ p) = l ++ characters cs p := by
  induction l with
  | nil => rfl
  | cons c l ih =>
    rw [text_cons, append_assoc, characters_append (hl c mem_cons_self), ih fun x hx => hl x (mem_cons_of_mem c hx),
      cons_append]

theorem characters_text' {l : List Character} (hl : ∀ c ∈ l, Whole cs c) : characters cs (text l) = l := by
  have h := characters_text hl []
  rw [append_nil] at h
  exact h.trans (append_nil l)

end Characters

section Boundaries

variable {cs : Charset} {opts : TokenizeOpts} {l : List Character}

def Boundary (l : List Character) (n : Nat) : Prop := ∃ k ≤ l.length, n = (text (l.take k)).length

theorem boundary_of_append (pre : List Character) {l' : List Character} {n : Nat} (h : l = pre ++ l')
    (hn : n = (text pre).length) : Boundary l n :=
  ⟨pre.length, by simp [h], by rw [h, take_left, hn]⟩

theorem words_split (pre : List Character) {word : List Character} {start : Nat} (hStart : start = (text pre).length)
    {w : Nat × List Character} (h : w ∈ wordsLoop cs opts start word l) :
    ∃ before after, pre ++ word ++ l = before ++ w.2 ++ after ∧ w.1 = (text before).length := by
  induction l generalizing pre word start with
  | nil =>
    cases mem_singleton.mp h
    exact ⟨pre, [], rfl, hStart⟩
  | cons c l ih =>
    rw [wordsLoop] at h
    split at h
    · simpa using ih pre hStart h
    · obtain rfl | h := mem_cons.mp h
      · exact ⟨pre, c :: l, rfl, hStart⟩
      · simpa using ih (pre ++ word ++ [c]) (by simp [hStart, Nat.add_assoc]) h

theorem parts_edges {P : Nat → Prop} {subStart n : Nat} {sub s : Bytes} {t : Span} (h : t ∈ parts opts subStart sub s)
    (hn : n = subStart + sub.length) (hStart : P subStart) (hEnd : P (n + s.length))
    (hCut : ∀ a b z, s = a ++ b :: z → opts.blendMap b = true → P (n + a.length) ∧ P (n + a.length + 1)) :
    P t.start ∧ P (t.start + t.bytes.length) := by
  induction s generalizing subStart sub n with
  | nil =>
    cases mem_singleton.mp h
    exact ⟨hStart, hn ▸ hEnd⟩
  | cons x s ih =>
    have hEnd' : P (n + 1 + s.length) := by rwa [Nat.add_right_comm]
    have hCut' (a : Bytes) (b : UInt8) (z : Bytes) (hs : s = a ++ b :: z) (hb : opts.blendMap b = true) :
        P (n + 1 + a.length) ∧ P (n + 1 + a.length + 1) := by
      rw [Nat.add_right_comm n]
      exact hCut (x :: a) b z (by rw [hs, cons_append]) hb
    rw [parts] at h
    split at h
    · rename_i hx
      obtain ⟨hBefore, hBehind⟩ := hCut [] x s rfl hx
      obtain rfl | h := mem_cons.mp h
      · exact ⟨hStart, hn ▸ hBefore⟩
      · exact ih h (by rw [hn]; rfl) (hn ▸ hBehind) hEnd' hCut'
    · exact ih h (by rw [hn, length_append]; rfl) hStart hEnd' hCut'

theorem single_of_text {a z : Bytes} {b : UInt8} (hText : text l = a ++ b :: z)
    (hb : ∀ c, .multi c ∈ l → b ∉ c) : ∃ pre post, l = pre ++ .single b :: post ∧ a = text pre := by
  induction l generalizing a with
  | nil =>
    rw [text_nil] at hText
    simp at hText
  | cons c l ih =>
    have hRest (c') (hc' : .multi c' ∈ l) : b ∉ c' := hb c' (mem_cons_of_mem _ hc')
    rw [text_cons] at hText
    obtain ⟨a', rfl, hTail⟩ | ⟨d, hBytes, hTail⟩ := append_eq_append_iff.mp hText
    · obtain ⟨pre, post, rfl, rfl⟩ := ih hTail hRest
      exact ⟨c :: pre, post, rfl, rfl⟩
    · cases d with
      | nil =>
        obtain ⟨pre, post, rfl, hNil⟩ := ih (a := []) hTail.symm hRest
        refine ⟨c :: pre, post, rfl, ?_⟩
        rw [text_cons, ← hNil, hBytes, append_nil, append_nil]
      | cons x d =>
        cases hTail
        cases c with
        | multi c =>
          have hMem : b ∈ (Character.multi c).bytes := hBytes ▸ mem_append_right a mem_cons_self
          exact absurd hMem (hb c mem_cons_self)
        | single y =>
          obtain ⟨rfl, hx⟩ | ⟨-, hx⟩ := append_eq_singleton_iff.mp hBytes.symm
          · cases hx
            exact ⟨[], l, rfl, rfl⟩
          · cases hx

theorem character_at (pre post pre' post' : List Character) {c c' : Character} (hBytes : c'.bytes ≠ [])
    (h : pre ++ c :: post = pre' ++ c' :: post') (hLe : (text pre).length ≤ (text pre').length)
    (hLt : (text pre').length < (text pre).length + c.bytes.length) : c = c' := by
  obtain ⟨d, rfl, hTail⟩ | ⟨d, rfl, hTail⟩ := append_eq_append_iff.mp h
  · cases d with
    | nil =>
      cases hTail
      rfl
    | cons x d =>
      cases hTail
      simp at hLt
  · cases d with
    | nil =>
      cases hTail
      rfl
    | cons x d =>
      cases hTail
      have hPos := length_pos_of_ne_nil hBytes
      rw [text_append, text_cons, length_append, length_append] at hLe
      omega

/-- Each token begins and ends between characters, and a word is cut at characters only. -/
structure WholeTokens (cs : Charset) (opts : TokenizeOpts) (l : List Character) : Prop where
  aligned : ∀ s ∈ spans cs opts (text l), emitToken cs opts s.bytes ≠ none →
    Boundary l s.start ∧ Boundary l (s.start + s.bytes.length)
  alone : ∀ w ∈ words cs opts (characters cs (text l)), w.2.any (isBlend cs opts) = true →
    ∀ a b z, text w.2 = a ++ b :: z → opts.blendMap b = true →
      ∃ pre post, l = pre ++ .single b :: post ∧ w.1 + a.length = (text pre).length

/-- No word that holds a blend character has a multibyte character with the byte of one. -/
def BlendApart (cs : Charset) (opts : TokenizeOpts) (l : List Character) : Prop :=
  ∀ w ∈ words cs opts l, w.2.any (isBlend cs opts) = true → ∀ c, .multi c ∈ w.2 → ∀ b ∈ c, opts.blendMap b = false

theorem alone_of_apart (h : BlendApart cs opts l) {w : Nat × List Character}
    (hw : w ∈ words cs opts l) (hBlend : w.2.any (isBlend cs opts) = true) {a z : Bytes} {b : UInt8}
    (hText : text w.2 = a ++ b :: z) (hb : opts.blendMap b = true) :
    ∃ pre post, l = pre ++ .single b :: post ∧ w.1 + a.length = (text pre).length := by
  obtain ⟨before, after, hSplit, hStart⟩ := words_split [] rfl hw
  obtain ⟨pre, post, hWord, rfl⟩ := single_of_text hText fun c hc hMem =>
    Bool.false_ne_true ((h w hw hBlend c hc b hMem).symm.trans hb)
  refine ⟨before ++ pre, post ++ after, ?_, by rw [hStart, text_append, length_append]⟩
  simpa [hWord] using hSplit

/-- Every token is made of whole characters exactly when no byte of a multibyte character in a blended word reads as a
blend character. -/
theorem whole_tokens_iff (hl : ∀ c ∈ l, Whole cs c) : WholeTokens cs opts l ↔ BlendApart cs opts l := by
  have hChars : characters cs (text l) = l := characters_text' hl
  constructor
  · intro h w hw hBlend c hc b hbc
    by_contra hb
    rw [Bool.not_eq_false] at hb
    obtain ⟨before, after, hSplit, hStart⟩ := words_split [] rfl hw
    obtain ⟨w₁, w₂, hWord⟩ := append_of_mem hc
    obtain ⟨c₁, c₂, rfl⟩ := append_of_mem hbc
    obtain ⟨pre, post, hl', hAt⟩ := h.alone w (by rwa [hChars]) hBlend (text w₁ ++ c₁) b (c₂ ++ text w₂)
      (by simp [hWord, Character.bytes]) hb
    have hBytes : (Character.single b).bytes ≠ [] := cons_ne_nil b []
    have hSame := character_at (before ++ w₁) (w₂ ++ after) pre post (c := .multi (c₁ ++ b :: c₂)) hBytes ?_ ?_ ?_
    · cases hSame
    · rw [← hl']
      simpa [hWord] using hSplit.symm
    · rw [← hAt, hStart]
      simp
    · rw [← hAt, hStart]
      simp [Character.bytes]
      omega
  · intro h
    have hAlone {w : Nat × List Character} (hw : w ∈ words cs opts l) := alone_of_apart h hw
    refine ⟨fun s hs _ => ?_, fun w hw hBlend a b z => hAlone (by rwa [hChars] at hw) hBlend⟩
    rw [spans, hChars] at hs
    obtain ⟨w, hw, hs⟩ := mem_flatMap.mp hs
    obtain ⟨before, after, hSplit, hStart⟩ := words_split [] rfl hw
    have hFrom : Boundary l w.1 := boundary_of_append before (by simpa using hSplit) hStart
    have hTo : Boundary l (w.1 + (text w.2).length) :=
      boundary_of_append (before ++ w.2) (by simpa using hSplit) (by simp [hStart])
    rw [wordSpans] at hs
    obtain rfl | hs := mem_cons.mp hs
    · exact ⟨hFrom, hTo⟩
    · split at hs
      · rename_i hBlend
        refine parts_edges hs rfl hFrom hTo fun a b z hText hb => ?_
        obtain ⟨pre, post, hl', hAt⟩ := hAlone hw hBlend hText hb
        have hNext : l = (pre ++ [.single b]) ++ post := by simp [hl']
        refine ⟨boundary_of_append pre hl' hAt, boundary_of_append _ hNext ?_⟩
        rw [text_append, length_append, ← hAt]
        rfl
      · cases hs

def doubleByte : Charset where
  mbcharLen
    | a :: _ :: _ => if 0x80 ≤ a then 2 else 0
    | _ => 0
  isAlnum b := 0x61 ≤ b && b ≤ 0x7A
  casedn p := p

theorem whole_ascii {b : UInt8} (hb : ¬0x80 ≤ b) : Whole doubleByte (.single b) := by
  rintro (_ | ⟨x, p⟩)
  · rfl
  · exact if_neg hb

theorem whole_double {a b : UInt8} (ha : 0x80 ≤ a) : Whole doubleByte (.multi [a, b]) := ⟨nofun, fun _ => if_pos ha⟩

def pipeOpts : TokenizeOpts := ⟨1, 84, (· = 0x7C), fun _ => false⟩

theorem whole_tokens_pipe : WholeTokens doubleByte pipeOpts [.single 0x61, .single 0x7C, .multi [0x83, 0x40]] := by
  refine (whole_tokens_iff ?_).mpr ?_
  · simp [whole_ascii, whole_double]
  · rintro w (_ | ⟨_, ⟨⟩⟩) - c hc b hb
    have hc : c = [0x83, 0x40] := by simpa using hc
    have hb : b = 0x83 ∨ b = 0x40 := by simpa [hc] using hb
    obtain rfl | rfl := hb <;> rfl

theorem character_cut_in_two : ¬WholeTokens doubleByte pipeOpts [.single 0x61, .single 0x7C, .multi [0x83, 0x7C]] := by
  intro h
  obtain ⟨k, hk, hEnd⟩ := (h.aligned ⟨2, [0x83]⟩ (by decide) (by decide)).2
  revert k
  decide

end Boundaries

end TideSql.FtsText
