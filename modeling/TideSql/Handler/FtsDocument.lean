import TideSql.Core.FtsText
import TideSql.Handler.Dml

/-!
# The document of a row

The texts of the indexed columns are joined by spaces, and the joined text has the tokens of each.
-/

namespace TideSql.FtsText
open SortKey KeyCodec Dml List

section Join

variable {cs : Charset} {opts : TokenizeOpts}

def wordBytes (cs : Charset) (opts : TokenizeOpts) (start : Nat) (word l : List Character) : List Bytes :=
  ((wordsLoop cs opts start word l).flatMap (wordSpans cs opts)).map Span.bytes

theorem tokenize_eq (p : Bytes) :
    tokenize cs opts p = (wordBytes cs opts 0 [] (characters cs p)).filterMap (emitToken cs opts) := by
  rw [wordBytes, filterMap_map]
  rfl

theorem bytes_parts (n m : Nat) (sub s : Bytes) :
    (parts opts n sub s).map Span.bytes = (parts opts m sub s).map Span.bytes := by
  induction s generalizing n m sub with
  | nil => rfl
  | cons b s ih =>
    rw [parts, parts]
    split
    · rw [map_cons, map_cons, ih _ (m + sub.length + 1)]
    · exact ih n m _

theorem bytes_wordSpans (n m : Nat) (word : List Character) :
    (wordSpans cs opts (n, word)).map Span.bytes = (wordSpans cs opts (m, word)).map Span.bytes := by
  rw [wordSpans, wordSpans, map_cons, map_cons]
  split
  · rw [bytes_parts n m]
  · rfl

theorem wordBytes_start (n m : Nat) (word l : List Character) :
    wordBytes cs opts n word l = wordBytes cs opts m word l := by
  induction l generalizing n m word with
  | nil => simpa [wordBytes, wordsLoop] using bytes_wordSpans n m word
  | cons c l ih =>
    simp only [wordBytes, wordsLoop] at ih ⊢
    split
    · exact ih n m _
    · rw [flatMap_cons, flatMap_cons, map_append, map_append, bytes_wordSpans n m, ih _ (m + _ + _)]

def Separator (cs : Charset) (opts : TokenizeOpts) (c : Character) : Prop := Whole cs c ∧ isWord cs opts c = false

theorem wordBytes_separator {c : Character} (hc : isWord cs opts c = false) (n : Nat) (word l l' : List Character) :
    wordBytes cs opts n word (l ++ c :: l') = wordBytes cs opts n word l ++ wordBytes cs opts 0 [] l' := by
  induction l generalizing n word with
  | nil =>
    have hRest : wordBytes cs opts (n + (text word).length + c.bytes.length) [] l' = wordBytes cs opts 0 [] l' :=
      wordBytes_start ..
    simp only [wordBytes, nil_append, wordsLoop, hc] at hRest ⊢
    simp [hRest]
  | cons x l ih =>
    simp only [wordBytes, cons_append, wordsLoop] at ih ⊢
    split
    · exact ih n _
    · rw [flatMap_cons, flatMap_cons, map_append, map_append, ih, append_assoc]

theorem tokenize_separator {l : List Character} {c : Character} (hl : ∀ x ∈ l, Whole cs x) (hc : Separator cs opts c)
    (p : Bytes) : tokenize cs opts (text l ++ (c.bytes ++ p)) = tokenize cs opts (text l) ++ tokenize cs opts p := by
  rw [tokenize_eq, tokenize_eq, tokenize_eq, characters_text hl, characters_append hc.1, wordBytes_separator hc.2,
    filterMap_append, characters_text' hl]

theorem tokenize_join (hSpace : Separator cs opts (.single 0x20)) {texts : List (List Character)}
    (hTexts : ∀ t ∈ texts, ∀ c ∈ t, Whole cs c) :
    tokenize cs opts ([0x20].intercalate (texts.map text)) = texts.flatMap fun t => tokenize cs opts (text t) := by
  induction texts with
  | nil => rfl
  | cons t texts ih =>
    have hRest := ih fun t' ht' => hTexts t' (mem_cons_of_mem t ht')
    cases texts with
    | nil => simp
    | cons t' texts =>
      rw [map_cons, map_cons, intercalate_cons_cons, ← map_cons, flatMap_cons, ← hRest, append_assoc]
      exact tokenize_separator (hTexts t mem_cons_self) hSpace _

theorem tokenize_document (hSpace : Separator cs opts (.single 0x20)) {ι : Type} {record : Row ι} {cols : List ι}
    {texts : List (List Character)} (hTexts : ∀ t ∈ texts, ∀ c ∈ t, Whole cs c)
    (hCols : cols.filterMap record = texts.map text) (doc : List Character) (hDoc : ∀ c ∈ doc, Whole cs c) :
    tokenize cs opts (cols.foldl (fun doc c =>
      match record c with
      | none => doc
      | some v => (if doc.isEmpty then doc else doc ++ [0x20]) ++ v) (text doc)) =
      tokenize cs opts (text doc) ++ texts.flatMap fun t => tokenize cs opts (text t) := by
  induction cols generalizing texts doc with
  | nil =>
    obtain rfl : texts = [] := by simpa using hCols.symm
    exact (append_nil _).symm
  | cons col cols ih =>
    rw [foldl_cons]
    cases hCol : record col with
    | none =>
      rw [filterMap_cons_none hCol] at hCols
      exact ih hTexts hCols doc hDoc
    | some v =>
      rw [filterMap_cons_some hCol] at hCols
      cases texts with
      | nil => cases hCols
      | cons t texts =>
        obtain ⟨rfl, hRest⟩ := cons.inj hCols
        have ht := hTexts t mem_cons_self
        have hTexts' (t') (ht' : t' ∈ texts) := hTexts t' (mem_cons_of_mem t ht')
        dsimp only
        split
        · rename_i hEmpty
          have hNil : text doc = [] := by simpa using hEmpty
          rw [hNil, nil_append, ih hTexts' hRest t ht, flatMap_cons]
          rfl
        · have hText : text doc ++ [0x20] ++ text t = text (doc ++ (.single 0x20 :: t)) := by simp [Character.bytes]
          have hWhole : ∀ c ∈ doc ++ .single 0x20 :: t, Whole cs c := by
            simp only [mem_append, mem_cons]
            rintro c (hc | rfl | hc)
            · exact hDoc c hc
            · exact hSpace.1
            · exact ht c hc
          rw [hText, ih hTexts' hRest _ hWhole, text_append, text_cons, tokenize_separator hDoc hSpace, flatMap_cons,
            append_assoc]

def EndsApart (cs : Charset) (opts : TokenizeOpts) (before : List Character) : Prop :=
  before = [] ∨ ∃ l c, before = l ++ [c] ∧ isWord cs opts c = false

def BeginsApart (cs : Charset) (opts : TokenizeOpts) (after : List Character) : Prop :=
  after = [] ∨ ∃ c l, after = c :: l ∧ isWord cs opts c = false

theorem tokenize_phrase {before phrase after : List Character} (hWhole : ∀ c ∈ before ++ phrase ++ after, Whole cs c)
    (hBefore : EndsApart cs opts before) (hAfter : BeginsApart cs opts after) :
    tokenize cs opts (text phrase) <:+: tokenize cs opts (text (before ++ phrase ++ after)) := by
  have hLast : tokenize cs opts (text phrase) <+: tokenize cs opts (text (phrase ++ after)) := by
    obtain rfl | ⟨c, l, rfl, hc⟩ := hAfter
    · rw [append_nil]
    · rw [text_append, text_cons, tokenize_separator (fun x hx => hWhole x (by simp [hx])) ⟨hWhole c (by simp), hc⟩]
      exact prefix_append ..
  have hFirst : tokenize cs opts (text (phrase ++ after)) <:+ tokenize cs opts (text (before ++ phrase ++ after)) := by
    obtain rfl | ⟨l, c, rfl, hc⟩ := hBefore
    · rfl
    · have hText : text (l ++ [c] ++ phrase ++ after) = text l ++ (c.bytes ++ text (phrase ++ after)) := by simp
      rw [hText, tokenize_separator (fun x hx => hWhole x (by simp [hx])) ⟨hWhole c (by simp), hc⟩]
      exact suffix_append ..
  exact hLast.isInfix.trans hFirst.isInfix

/-- The words of the joined texts are those of the texts one after the other, so that no word and no phrase runs over a
border. -/
theorem tokens_of_joined (hSpace : Separator cs opts (.single 0x20)) (texts : List (List Character))
    (hTexts : ∀ t ∈ texts, ∀ c ∈ t, Whole cs c) :
    tokenize cs opts ([0x20].intercalate (texts.map text)) = texts.flatMap (fun t => tokenize cs opts (text t)) ∧
      (∀ before phrase after, before ++ phrase ++ after ∈ texts → EndsApart cs opts before →
        BeginsApart cs opts after → phraseInTokens (tokenize cs opts ([0x20].intercalate (texts.map text)))
          (tokenize cs opts (text phrase)) = true) ∧
      ∀ {ι : Type} (cols : List ι) (record : Row ι), cols.filterMap record = texts.map text →
        ftsExtractAndTokenize cols (tokenize cs opts) record =
          tokenize cs opts ([0x20].intercalate (texts.map text)) := by
  have hJoin := tokenize_join hSpace hTexts
  refine ⟨hJoin, fun before phrase after hMem hBefore hAfter => ?_, fun cols record hCols => ?_⟩
  · rw [hJoin, phraseInTokens_iff]
    have hText : tokenize cs opts (text (before ++ phrase ++ after)) <:+:
        texts.flatMap fun t => tokenize cs opts (text t) := by
      obtain ⟨pre, post, rfl⟩ := append_of_mem hMem
      rw [flatMap_append, flatMap_cons, ← append_assoc]
      exact infix_append ..
    exact (tokenize_phrase (hTexts _ hMem) hBefore hAfter).trans hText
  · rw [hJoin, ftsExtractAndTokenize]
    exact tokenize_document hSpace hTexts hCols [] nofun

theorem tokens_of_two_texts :
    phraseInTokens (tokenize doubleByte pipeOpts [0x61, 0x62, 0x20, 0x83, 0x41, 0x2C, 0x63, 0x20, 0x64])
      [[0x83, 0x41], [0x63]] = true :=
  (tokens_of_joined ⟨whole_ascii (by decide), rfl⟩
    [[.single 0x61, .single 0x62, .single 0x20, .multi [0x83, 0x41], .single 0x2C, .single 0x63], [.single 0x64]]
    (by simp [whole_ascii, whole_double])).2.1
    [.single 0x61, .single 0x62, .single 0x20] [.multi [0x83, 0x41], .single 0x2C, .single 0x63] [] mem_cons_self
    (.inr ⟨[.single 0x61, .single 0x62], .single 0x20, rfl, rfl⟩) (.inl rfl)

end Join

end TideSql.FtsText
