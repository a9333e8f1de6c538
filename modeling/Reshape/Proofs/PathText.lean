import Reshape.Path.Basic

/-!
# Texts of paths

Writing a path and reading its text go back and forth. A text that spells a path is the text of
that path (`Path.text_of_ofText?`), and a path is read back from its text if every token is written
as a segment (`Path.ofText?_text`), as every token of a path that was read is
(`Path.spelled_of_ofText?`).
-/

namespace Reshape

/-- The token is written as a segment of a path and read back from it. -/
structure Token.Spelled (token : Token) : Prop where
  read : ofText token.text = token
  segment : Path.isSegment token.text.toList = true
  dotless : '.' ∉ token.text.toList

namespace Path

/-- All tokens of the path are written as segments. -/
def Spelled (path : Path) : Prop := ∀ token ∈ path.tokens, token.Spelled

/-- The characters between the dots of the text of a path. -/
def pieces (path : Path) : List (List Char) :=
  ['$'] :: path.tokens.map fun token => token.text.toList

theorem toList_text (path : Path) : path.text.toList = ['.'].intercalate path.pieces := by
  obtain ⟨tokens⟩ := path
  have joined : ∀ first : List Char, ['.'].intercalate (first :: tokens.map fun token =>
      token.text.toList) = first ++ tokens.flatMap fun token => '.' :: token.text.toList := by
    induction tokens with
    | nil => intro first; simp
    | cons token rest ih =>
      intro first
      rw [List.map_cons, List.intercalate_cons_cons, ih, List.flatMap_cons]
      simp
  unfold text pieces
  rw [joined, String.toList_append, String.toList_join, List.flatMap_map]
  simp

/-- What is read are the segments behind the first one, which is `$`. -/
theorem segments_of_ofText? {text : String} {path : Path} (parsed : ofText? text = some path) :
    ∃ segments, text.toList.splitOn '.' = ['$'] :: segments ∧
      (∀ segment ∈ segments, isSegment segment = true) ∧
      path.tokens = segments.map fun segment => Token.ofText (String.ofList segment) := by
  unfold ofText? at parsed
  split at parsed
  · next segments shape =>
    split at parsed
    · next all =>
      cases parsed
      exact ⟨segments, shape, List.all_eq_true.mp all, rfl⟩
    · cases parsed
  · cases parsed

/-- A text that spells a path is the text of the path. -/
theorem text_of_ofText? {text : String} {path : Path} (parsed : ofText? text = some path) :
    path.text = text := by
  obtain ⟨segments, shape, _, tokens⟩ := segments_of_ofText? parsed
  have pieces : path.pieces = text.toList.splitOn '.' := by
    rw [shape, Path.pieces, tokens, List.map_map]
    refine congrArg (['$'] :: ·) ((List.map_congr_left fun segment _ => ?_).trans
      (List.map_id segments))
    exact (congrArg String.toList (Token.text_ofText _)).trans String.toList_ofList
  have characters : path.text.toList = text.toList := by
    rw [toList_text, pieces, List.intercalate_splitOn]
  exact String.toList_inj.mp characters

theorem ofText?_of_ofText {text : String} {path : Path} (parsed : ofText text = .ok path) :
    ofText? text = some path := by
  unfold ofText at parsed
  split at parsed
  · cases parsed
    assumption
  · cases parsed

theorem text_of_ofText {text : String} {path : Path} (parsed : ofText text = .ok path) :
    path.text = text := text_of_ofText? (ofText?_of_ofText parsed)

theorem dotless_of_mem_splitOn {characters segment : List Char}
    (member : segment ∈ characters.splitOn '.') : '.' ∉ segment := by
  induction characters generalizing segment with
  | nil =>
    rw [List.splitOn_nil, List.mem_singleton] at member
    rw [member]
    exact List.not_mem_nil
  | cons c rest ih =>
    rw [List.splitOn_cons_eq_if_modifyHead] at member
    split at member
    · rcases List.mem_cons.mp member with rfl | later
      · exact List.not_mem_nil
      · exact ih later
    · next other =>
      -- the character is put in front of the first segment of the rest
      cases found : rest.splitOn '.' with
      | nil => exact absurd found (List.splitOn_ne_nil _ _)
      | cons first others =>
        rw [found, List.modifyHead_cons] at member
        rw [found] at ih
        rcases List.mem_cons.mp member with rfl | later
        · intro dot
          rcases List.mem_cons.mp dot with same | inside
          · rw [← same] at other
            exact other (BEq.refl '.')
          · exact ih List.mem_cons_self inside
        · exact ih (List.mem_cons_of_mem _ later)

/-- The tokens of a path that was read are written as segments. -/
theorem spelled_of_ofText? {text : String} {path : Path} (parsed : ofText? text = some path) :
    path.Spelled := by
  obtain ⟨segments, shape, all, tokens⟩ := segments_of_ofText? parsed
  intro token member
  rw [tokens] at member
  obtain ⟨segment, inside, rfl⟩ := List.mem_map.mp member
  have characters : (Token.ofText (String.ofList segment)).text.toList = segment := by
    rw [Token.text_ofText, String.toList_ofList]
  refine ⟨by rw [Token.text_ofText], by rw [characters]; exact all segment inside, ?_⟩
  rw [characters]
  exact dotless_of_mem_splitOn (shape ▸ List.mem_cons_of_mem _ inside)

/-- A path whose tokens are written as segments is read back from its text. -/
theorem ofText?_text {path : Path} (spelled : path.Spelled) : ofText? path.text = some path := by
  have split : path.text.toList.splitOn '.' =
      ['$'] :: path.tokens.map fun token => token.text.toList := by
    rw [toList_text]
    refine List.splitOn_intercalate '.' (fun piece inside => ?_) (List.cons_ne_nil _ _)
    rcases List.mem_cons.mp inside with rfl | inside
    · decide
    · obtain ⟨token, member, same⟩ := List.mem_map.mp inside
      exact same ▸ (spelled token member).dotless
  have all : (path.tokens.map fun token => token.text.toList).all isSegment = true := by
    refine List.all_eq_true.mpr fun segment inside => ?_
    obtain ⟨token, member, rfl⟩ := List.mem_map.mp inside
    exact (spelled token member).segment
  have tokens : (path.tokens.map fun token => token.text.toList).map
      (fun segment => Token.ofText (String.ofList segment)) = path.tokens := by
    rw [List.map_map]
    refine (List.map_congr_left fun token member => ?_).trans (List.map_id path.tokens)
    exact (congrArg Token.ofText String.ofList_toList).trans (spelled token member).read
  unfold ofText?
  rw [split]
  exact (if_pos all).trans (congrArg (fun tokens => some (Path.mk tokens)) tokens)

end Path

end Reshape
