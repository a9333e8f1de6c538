import Mathlib.Computability.Language
import Reshape.Proofs.PathText

/-!
# The grammar of paths

A text is grammatical if it is `$` with segments behind it, each after a dot. A segment is not empty
and has neither a dot nor a blank in it.

The grammar is also written as a regular pattern, `$(.:?[^\s.]+)*`, with a repetition inside a
repetition and an optional colon that the repeated class admits anyway.

* `Path.mem_pattern_iff`: the pattern matches the grammatical texts.
* `Path.ofText?_eq_some_iff`: what is read from a grammatical text are its segments, in order.
* `Path.ofText_iff_grammatical`: a text is read exactly if it is grammatical.
* `Path.ofText_inverts_text`: which paths are read back from the text that they are written as.
-/

namespace Reshape

open Computability

/-- The token of a segment: a variable begins with a colon, and the colon is not all of it. -/
def Token.ofSegment (segment : String) : Token :=
  match segment.toList with
  | ':' :: _ :: _ => .var segment
  | _ => .key segment

namespace Path

/-- The text can stand between two dots of a path. -/
structure Segment (text : String) : Prop where
  nonempty : text ≠ ""
  dotless : '.' ∉ text.toList
  unblank : ∀ c ∈ text.toList, isBlank c = false

/-- The root with segments behind it, each after a dot. -/
def spell (segments : List String) : String :=
  "$" ++ String.join (segments.map fun segment => "." ++ segment)

/-- The text spells the root with segments behind it. -/
def Grammatical (text : String) : Prop :=
  ∃ segments, (∀ segment ∈ segments, Segment segment) ∧ text = spell segments

/-! ## Reading segments -/

section Segments

variable {segment text : String} {path : Path}

theorem isSegment_of_segment (whole : Segment segment) : isSegment segment.toList = true := by
  have nonempty : segment.toList.isEmpty = false := by
    rw [List.isEmpty_eq_false_iff]
    exact fun empty => whole.nonempty (String.toList_eq_nil_iff.mp empty)
  have unblank : (segment.toList.all fun c => !isBlank c) = true :=
    List.all_eq_true.mpr fun c member => by rw [whole.unblank c member, Bool.not_false]
  rw [isSegment, nonempty, unblank]
  rfl

theorem segment_of_spelled {token : Token} (spelled : token.Spelled) : Segment token.text := by
  have whole := spelled.segment
  rw [isSegment, Bool.and_eq_true, List.all_eq_true] at whole
  refine ⟨fun empty => ?_, spelled.dotless, fun c member => ?_⟩
  · rw [empty] at whole
    exact absurd whole.1 (by decide)
  · have unblank := whole.2 c member
    rwa [Bool.not_eq_true'] at unblank

theorem ofSegment_of_colon {c : Char} {rest : List Char}
    (colon : segment.toList = ':' :: c :: rest) : Token.ofSegment segment = .var segment := by
  unfold Token.ofSegment
  rw [colon]
  rfl

theorem ofSegment_of_plain (plain : ¬ ∃ c rest, segment.toList = ':' :: c :: rest) :
    Token.ofSegment segment = .key segment := by
  unfold Token.ofSegment
  split
  · next c rest colon => exact absurd ⟨c, rest, colon⟩ plain
  · rfl

theorem isReference_eq_false (plain : ¬ ∃ c rest, segment.toList = ':' :: c :: rest) :
    isReference segment = false := by
  unfold isReference
  split
  · next c rest colon => exact absurd ⟨c, rest, colon⟩ plain
  · rfl

/-- In a segment, where nothing is blank, one character behind the colon makes a reference. -/
theorem ofText_eq_ofSegment (whole : Segment segment) :
    Token.ofText segment = Token.ofSegment segment := by
  by_cases colon : ∃ c rest, segment.toList = ':' :: c :: rest
  · obtain ⟨c, rest, colon⟩ := colon
    have reference : isReference segment = true := by
      unfold isReference
      rw [colon]
      refine List.all_eq_true.mpr fun d member => ?_
      rw [whole.unblank d (colon ▸ List.mem_cons_of_mem _ member), Bool.not_false]
    rw [Token.ofText, if_pos reference, ofSegment_of_colon colon]
  · have plain : ¬ isReference segment = true := by rw [isReference_eq_false colon]; decide
    rw [Token.ofText, if_neg plain, ofSegment_of_plain colon]

theorem spelled_ofSegment (whole : Segment segment) : (Token.ofSegment segment).Spelled := by
  rw [← ofText_eq_ofSegment whole]
  refine ⟨by rw [Token.text_ofText], ?_, ?_⟩
  · rw [Token.text_ofText]
    exact isSegment_of_segment whole
  · rw [Token.text_ofText]
    exact whole.dotless

theorem text_mk_map (segments : List String) (classify : String → Token)
    (same : ∀ segment ∈ segments, (classify segment).text = segment) :
    (Path.mk (segments.map classify)).text = spell segments := by
  rw [text, spell, List.map_map]
  refine congrArg (fun pieces => "$" ++ String.join pieces) (List.map_congr_left ?_)
  exact fun segment member => congrArg ("." ++ ·) (same segment member)

/-- A path is read exactly from the text that spells it, segment by segment. -/
theorem ofText?_eq_some_iff :
    ofText? text = some path ↔ ∃ segments, (∀ segment ∈ segments, Segment segment) ∧
      text = spell segments ∧ path.tokens = segments.map Token.ofSegment := by
  constructor
  · intro parsed
    have spelled := spelled_of_ofText? parsed
    refine ⟨path.tokens.map Token.text, List.forall_mem_map.mpr fun token member =>
      segment_of_spelled (spelled token member), ?_, ?_⟩
    · rw [← text_of_ofText? parsed, Path.text, spell, List.map_map]
      rfl
    · rw [List.map_map]
      refine ((List.map_congr_left fun token member => ?_).trans (List.map_id _)).symm
      have token := spelled token member
      exact (ofText_eq_ofSegment (segment_of_spelled token)).symm.trans token.read
  · rintro ⟨segments, whole, rfl, tokens⟩
    have spelled : path.Spelled := by
      intro token member
      rw [tokens] at member
      obtain ⟨segment, inside, rfl⟩ := List.mem_map.mp member
      exact spelled_ofSegment (whole segment inside)
    have written : path.text = spell segments := by
      have texts := text_mk_map segments Token.ofSegment fun segment inside => by
        rw [← ofText_eq_ofSegment (whole segment inside), Token.text_ofText]
      rwa [← tokens] at texts
    exact written ▸ ofText?_text spelled

theorem isSome_ofText?_iff : (ofText? text).isSome = true ↔ Grammatical text := by
  rw [Option.isSome_iff_exists]
  constructor
  · rintro ⟨path, parsed⟩
    obtain ⟨segments, whole, spelled, _⟩ := ofText?_eq_some_iff.mp parsed
    exact ⟨segments, whole, spelled⟩
  · rintro ⟨segments, whole, spelled⟩
    exact ⟨⟨segments.map Token.ofSegment⟩, ofText?_eq_some_iff.mpr ⟨segments, whole, spelled, rfl⟩⟩

instance (text : String) : Decidable (Grammatical text) :=
  decidable_of_iff _ isSome_ofText?_iff

example : Grammatical "$.:.a" ∧ ¬ Grammatical "$.a\n" ∧ ¬ Grammatical "$..a" := by decide +kernel

end Segments

/-! ## The pattern -/

/-- One character that may stand in a segment. -/
def segmentChar : Language Char := {word | ∃ c, word = [c] ∧ c ≠ '.' ∧ isBlank c = false}

/-- A dot and a segment behind it, whose colon may be read on its own. -/
def link : Language Char := {['.']} * ((1 + {[':']}) * (segmentChar * segmentChar∗))

/-- The pattern of the texts of paths. -/
def pattern : Language Char := {['$']} * link∗

theorem mem_segmentChars_iff {word : List Char} :
    word ∈ segmentChar∗ ↔ ∀ c ∈ word, c ≠ '.' ∧ isBlank c = false := by
  rw [Language.mem_kstar]
  constructor
  · rintro ⟨singles, rfl, admitted⟩ c member
    obtain ⟨single, inside, member⟩ := List.mem_flatten.mp member
    obtain ⟨d, rfl, plain⟩ := admitted single inside
    exact List.mem_singleton.mp member ▸ plain
  · intro plain
    refine ⟨word.map fun c => [c], ?_, List.forall_mem_map.mpr fun c member => ?_⟩
    · rw [← List.flatMap_def, List.flatMap_singleton']
    · exact ⟨c, rfl, plain c member⟩

/-- The optional colon adds nothing: it is a character of the class. -/
theorem mem_link_iff {word : List Char} :
    word ∈ link ↔ ∃ segment, Segment segment ∧ word = '.' :: segment.toList := by
  constructor
  · rintro ⟨_, rfl, _, ⟨colon, optional, _, ⟨_, ⟨c, rfl, plain⟩, rest, others, rfl⟩, rfl⟩, rfl⟩
    have others := mem_segmentChars_iff.mp others
    have admitted : ∀ d ∈ colon ++ c :: rest, d ≠ '.' ∧ isBlank d = false := by
      intro d member
      rcases List.mem_append.mp member with front | member
      · rcases optional with rfl | rfl
        · cases front
        · exact List.mem_singleton.mp front ▸ by decide
      · rcases List.mem_cons.mp member with rfl | later
        · exact plain
        · exact others d later
    refine ⟨String.ofList (colon ++ c :: rest), ⟨?_, ?_, ?_⟩, ?_⟩
    · intro empty
      have shape := congrArg String.toList empty
      rw [String.toList_ofList] at shape
      exact List.append_ne_nil_of_right_ne_nil _ (List.cons_ne_nil c rest) shape
    · rw [String.toList_ofList]
      exact fun member => (admitted '.' member).1 rfl
    · rw [String.toList_ofList]
      exact fun d member => (admitted d member).2
    · rw [String.toList_ofList]
      rfl
  · rintro ⟨segment, whole, rfl⟩
    have admitted : ∀ c ∈ segment.toList, c ≠ '.' ∧ isBlank c = false := fun c member =>
      ⟨fun dot => whole.dotless (dot ▸ member), whole.unblank c member⟩
    cases shape : segment.toList with
    | nil => exact absurd (String.toList_eq_nil_iff.mp shape) whole.nonempty
    | cons c rest =>
      rw [shape] at admitted
      obtain ⟨plain, others⟩ := List.forall_mem_cons.mp admitted
      exact ⟨['.'], rfl, c :: rest, ⟨[], Or.inl rfl, c :: rest,
        ⟨[c], ⟨c, rfl, plain⟩, rest, mem_segmentChars_iff.mpr others, rfl⟩, rfl⟩, rfl⟩

theorem toList_spell (segments : List String) :
    (spell segments).toList = '$' :: segments.flatMap fun segment => '.' :: segment.toList := by
  rw [spell, String.toList_append, String.toList_join, List.flatMap_map]
  simp

theorem exists_segments_of_links {words : List (List Char)} (links : ∀ word ∈ words, word ∈ link) :
    ∃ segments : List String, (∀ segment ∈ segments, Segment segment) ∧
      words.flatten = segments.flatMap fun segment => '.' :: segment.toList := by
  induction words with
  | nil => exact ⟨[], nofun, rfl⟩
  | cons word rest ih =>
    obtain ⟨first, later⟩ := List.forall_mem_cons.mp links
    obtain ⟨segment, whole, rfl⟩ := mem_link_iff.mp first
    obtain ⟨segments, others, same⟩ := ih later
    refine ⟨segment :: segments, List.forall_mem_cons.mpr ⟨whole, others⟩, ?_⟩
    rw [List.flatten_cons, List.flatMap_cons, same]

/-- The pattern matches the grammatical texts. -/
theorem mem_pattern_iff {text : String} : text.toList ∈ pattern ↔ Grammatical text := by
  constructor
  · rintro ⟨_, rfl, _, ⟨words, rfl, links⟩, same⟩
    obtain ⟨segments, whole, spelled⟩ := exists_segments_of_links links
    refine ⟨segments, whole, String.toList_inj.mp ?_⟩
    rw [toList_spell, ← spelled]
    exact same.symm
  · rintro ⟨segments, whole, rfl⟩
    rw [toList_spell]
    refine ⟨['$'], rfl, _, Language.mem_kstar.mpr ⟨_, List.flatMap_def, ?_⟩, rfl⟩
    exact List.forall_mem_map.mpr fun segment member =>
      mem_link_iff.mpr ⟨segment, whole segment member, rfl⟩

/-! ## Reading texts -/

theorem ofText_eq_ok_iff {text : String} {path : Path} :
    ofText text = .ok path ↔ ofText? text = some path := by
  unfold ofText
  cases ofText? text with
  | none => exact ⟨nofun, nofun⟩
  | some other => rw [Except.ok.injEq, Option.some_inj]

theorem exists_ofText_iff {text : String} :
    (∃ path, ofText text = .ok path) ↔ Grammatical text := by
  simp only [ofText_eq_ok_iff]
  rw [← isSome_ofText?_iff, Option.isSome_iff_exists]

theorem ofText_eq_error_iff {text : String} {error : Error} :
    ofText text = .error error ↔ ¬ Grammatical text ∧ error = .malformedPath text := by
  rw [← isSome_ofText?_iff]
  unfold ofText
  cases ofText? text with
  | none => simp [eq_comm]
  | some path => simp

/-- A text is read as a path exactly if it is grammatical, which is what the pattern says. The path
then has the text that it was read from and a token for each segment, in order; any other text is
reported as it is. -/
theorem ofText_iff_grammatical (text : String) :
    ((∃ path, ofText text = .ok path) ↔ Grammatical text) ∧
      (text.toList ∈ pattern ↔ Grammatical text) ∧
      (∀ path, ofText text = .ok path ↔
        ∃ segments, (∀ segment ∈ segments, Segment segment) ∧ text = spell segments ∧
          path.text = text ∧ path.tokens = segments.map Token.ofSegment) ∧
      ∀ error, ofText text = .error error ↔ ¬ Grammatical text ∧ error = .malformedPath text := by
  refine ⟨exists_ofText_iff, mem_pattern_iff, fun path => ?_, fun error => ofText_eq_error_iff⟩
  rw [ofText_eq_ok_iff]
  constructor
  · intro parsed
    obtain ⟨segments, whole, spelled, tokens⟩ := ofText?_eq_some_iff.mp parsed
    exact ⟨segments, whole, spelled, text_of_ofText? parsed, tokens⟩
  · rintro ⟨segments, whole, spelled, _, tokens⟩
    exact ofText?_eq_some_iff.mpr ⟨segments, whole, spelled, tokens⟩

/-! ## Writing paths and reading them back -/

section ReadBack

variable {text : String} {token : Token} {path : Path}

theorem spelled_iff : token.Spelled ↔ Token.ofText token.text = token ∧ Segment token.text := by
  constructor
  · intro spelled
    exact ⟨spelled.read, segment_of_spelled spelled⟩
  · intro ⟨read, whole⟩
    exact ⟨read, isSegment_of_segment whole, whole.dotless⟩

/-- A path is read from the text that it is written as, or not at all. -/
theorem ofText_text_eq_ok_iff : ofText path.text = .ok path ↔ path.Spelled := by
  rw [ofText_eq_ok_iff]
  exact ⟨spelled_of_ofText?, ofText?_text⟩

/-- Tokens that no text is read as: a key that begins as a variable does, a variable that is no
reference, and a key with a dot in it. -/
inductive Unreadable : Token → Prop where
  | colon {text : String} {c : Char} {rest : List Char} :
    text.toList = ':' :: c :: rest → Unreadable (.key text)
  | plain {name : String} : isReference name = false → Unreadable (.var name)
  | dotted {text : String} : '.' ∈ text.toList → Unreadable (.key text)

theorem Unreadable.not_spelled (unreadable : Unreadable token) : ¬ token.Spelled := by
  intro spelled
  cases unreadable with
  | @colon text c rest shape =>
    -- a segment holds no blank, so that the text of the key is read as a variable
    have read : Token.ofText text = .key text := spelled.read
    have whole : Segment text := segment_of_spelled spelled
    rw [ofText_eq_ofSegment whole, ofSegment_of_colon shape] at read
    cases read
  | @plain name plain =>
    have read : Token.ofText name = .var name := spelled.read
    rw [Token.ofText, plain] at read
    cases read
  | dotted dot => exact spelled.dotless dot

/-- Reading and writing are inverse to each other. A path that was read is written as the text that
it was read from. The path of some tokens is read back from its text exactly if every token is the
one that its text is read as and this text is a segment; with a token that is unreadable among
them, whatever is read has other tokens. -/
theorem ofText_inverts_text :
    (∀ text path, ofText text = .ok path →
        (Path.mk path.tokens).text = text ∧ Path.mk path.tokens = path) ∧
      (∀ tokens, ofText (Path.mk tokens).text = .ok ⟨tokens⟩ ↔
        ∀ token ∈ tokens, Token.ofText token.text = token ∧ Segment token.text) ∧
      ∀ tokens, (∃ token ∈ tokens, Unreadable token) →
        ∀ path, ofText (Path.mk tokens).text = .ok path → path.tokens ≠ tokens := by
  refine ⟨fun text path parsed => ⟨text_of_ofText parsed, rfl⟩, fun tokens => ?_, ?_⟩
  · rw [ofText_text_eq_ok_iff]
    exact forall₂_congr fun token _ => spelled_iff
  · intro tokens ⟨token, member, unreadable⟩ path parsed same
    have spelled := spelled_of_ofText? (ofText_eq_ok_iff.mp parsed)
    exact unreadable.not_spelled (spelled token (same ▸ member))

/-- A lone colon and a variable, read from a text; a key with a dot, which is read as two. -/
theorem ofText_inverts_text_cells :
    let tokens : List Token := [.key ":", .var ":row", .key "0"]
    ofText "$.:.:row.0" = .ok ⟨tokens⟩ ∧ (Path.mk tokens).text = "$.:.:row.0" ∧
      ofText (Path.mk [.key "a.b", .key "c"]).text = .ok ⟨[.key "a", .key "b", .key "c"]⟩ ∧
      ofText (Path.mk [.key "a.b", .key "c"]).text ≠ .ok ⟨[.key "a.b", .key "c"]⟩ := by
  intro tokens
  obtain ⟨written, _, unread⟩ := ofText_inverts_text
  have parsed : ofText "$.:.:row.0" = .ok ⟨tokens⟩ := by decide +kernel
  refine ⟨parsed, (written _ _ parsed).1, by decide +kernel, fun same => ?_⟩
  exact unread _ ⟨.key "a.b", List.mem_cons_self, .dotted (by decide)⟩ _ same rfl

end ReadBack

end Path

end Reshape
