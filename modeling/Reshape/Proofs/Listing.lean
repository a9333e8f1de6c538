import Reshape.Proofs.Addresses

/-!
# Items, candidate by candidate

A candidate of the variable in a path is a position or a key, found at the place before the
variable. It is written into the path as a token, and the whole path is followed again from the
root. `Token.OpenAt` says that one variable is left among tokens, and where it stands; for such
tokens the detour changes nothing:

* `Path.result_items_of_openAt`: each candidate leads back to the child that it was made from, and
  a place without children has one candidate, which leads nowhere.
* `Path.result_items_eq_flatMap_bind`: binding a candidate outside the path lists the items of this
  candidate, and the environments of items never change a variable that was bound before.
-/

namespace Reshape

/-! ## One variable among tokens -/

namespace Token

/-- One variable is left among the tokens, behind the tokens `before` and in front of `after`. -/
structure OpenAt (tokens before : List Token) (name : String) (after : List Token) : Prop where
  shape : tokens = before ++ .var name :: after
  before : variableNames before = []
  after : variableNames after = []

theorem variableNames_append (first second : List Token) :
    variableNames (first ++ second) = variableNames first ++ variableNames second :=
  List.filterMap_append

theorem variableNames_eq_nil_iff {tokens : List Token} :
    variableNames tokens = [] ↔ ∀ token ∈ tokens, token.isVariable = false := by
  rw [variableNames, List.filterMap_eq_nil_iff]
  refine forall₂_congr fun token _ => ?_
  cases token with
  | key text => exact ⟨fun _ => rfl, fun _ => rfl⟩
  | var name => exact ⟨nofun, nofun⟩

theorem OpenAt.variableNames_eq {tokens before after : List Token} {name : String}
    (isOpen : OpenAt tokens before name after) : variableNames tokens = [name] := by
  rw [isOpen.shape, variableNames_append, isOpen.before]
  exact congrArg (name :: ·) isOpen.after

/-- Tokens with one variable are open at some place. -/
theorem openAt_of_variableNames {tokens : List Token} {name : String}
    (one : variableNames tokens = [name]) :
    ∃ before after, OpenAt tokens before name after := by
  obtain ⟨before, token, after, rfl, closed, found, rest⟩ := List.filterMap_eq_cons_iff.mp one
  cases token with
  | key text => cases found
  | var other =>
    cases found
    exact ⟨before, after, rfl, List.filterMap_eq_nil_iff.mpr closed, rest⟩

theorem OpenAt.takeWhile_eq {tokens before after : List Token} {name : String}
    (isOpen : OpenAt tokens before name after) :
    tokens.takeWhile (fun token => !token.isVariable) = before := by
  have closed := variableNames_eq_nil_iff.mp isOpen.before
  rw [isOpen.shape, List.takeWhile_append_of_pos (by simpa using closed),
    List.takeWhile_cons_of_neg (by simp [isVariable]), List.append_nil]

theorem OpenAt.dropWhile_eq {tokens before after : List Token} {name : String}
    (isOpen : OpenAt tokens before name after) :
    tokens.dropWhile (fun token => !token.isVariable) = .var name :: after := by
  have closed := variableNames_eq_nil_iff.mp isOpen.before
  rw [isOpen.shape, List.dropWhile_append_of_pos (by simpa using closed),
    List.dropWhile_cons_of_neg (by simp [isVariable])]

end Token

/-! ## Filling tokens -/

namespace Env

variable {env : Env}

/-- A variable that is left among filled tokens is not bound. -/
theorem get?_eq_none_of_mem_fill {tokens : List Token} {name : String}
    (left : .var name ∈ env.fill tokens) : env.get? name = none := by
  obtain ⟨token, _, filled⟩ := List.mem_map.mp left
  cases token with
  | key text => cases filled
  | var other =>
    rw [fillToken] at filled
    cases found : env.get? other with
    | none =>
      rw [found] at filled
      cases filled
      exact found
    | some value =>
      rw [found] at filled
      cases filled

theorem get?_eq_none_of_openAt {tokens before after : List Token} {name : String}
    (isOpen : Token.OpenAt (env.fill tokens) before name after) : env.get? name = none :=
  get?_eq_none_of_mem_fill (isOpen.shape ▸ List.mem_append_right before List.mem_cons_self)

/-- Tokens without a variable are filled already. -/
theorem fill_of_variableNames_eq_nil (env : Env) {tokens : List Token}
    (closed : Token.variableNames tokens = []) : env.fill tokens = tokens := by
  refine (List.map_congr_left fun token member => ?_).trans (List.map_id tokens)
  cases token with
  | key text => rfl
  | var name => cases Token.variableNames_eq_nil_iff.mp closed _ member

/-- Filling tokens with one binding more is filling what was left with this binding. -/
theorem fill_bind {name : String} (unbound : env.get? name = none) (value : Json)
    (tokens : List Token) :
    (env.bind name value).fill tokens = (empty.bind name value).fill (env.fill tokens) := by
  rw [fill, fill, fill, List.map_map]
  refine List.map_congr_left fun token _ => ?_
  cases token with
  | key text => rfl
  | var other =>
    rw [Function.comp_apply, fillToken, fillToken, get?_bind]
    by_cases same : name = other
    · rw [if_pos same, ← same, unbound, fillToken, get?_bind, if_pos rfl]
    · rw [if_neg same]
      cases env.get? other with
      | some value => rfl
      | none => rw [fillToken, get?_bind, if_neg same, get?_empty]

/-- Binding the variable that is left turns it into a key. -/
theorem fill_bind_of_openAt {tokens before after : List Token} {name : String}
    (isOpen : Token.OpenAt (env.fill tokens) before name after) (value : Json) :
    (env.bind name value).fill tokens = before ++ .key value.asKey :: after := by
  have bound : (empty.bind name value).fillToken (.var name) = .key value.asKey := by
    rw [fillToken, get?_bind, if_pos rfl]
  have closedBefore := fill_of_variableNames_eq_nil (empty.bind name value) isOpen.before
  have closedAfter := fill_of_variableNames_eq_nil (empty.bind name value) isOpen.after
  rw [fill] at closedBefore closedAfter
  rw [fill_bind (get?_eq_none_of_openAt isOpen), isOpen.shape, fill, List.map_append,
    List.map_cons, closedBefore, bound, closedAfter]

end Env

/-! ## Candidates -/

namespace Json

/-- A place that is neither an array nor an object is its own only candidate. -/
theorem candidates_of_childless {place : Option Json}
    (notArray : ∀ items, place ≠ some (.array items))
    (notObject : ∀ entries, place ≠ some (.object entries)) :
    candidates place = [orNull place] := by
  unfold candidates
  split
  · exact absurd rfl (notArray _)
  · exact absurd rfl (notObject _)
  · rfl

/-- A position is used as a key in digits. -/
theorem asKey_ofNat (position : Nat) : (ofNat position).asKey = toString position := by
  refine String.toList_inj.mp (Eq.trans ?_ Nat.toList_repr.symm)
  exact String.toList_ofList

/-- The position of an item leads to the item. -/
theorem child?_array {items : List Json} (short : (Json.array items).ShortArray) {item : Json}
    {position : Nat} (found : items[position]? = some item) :
    (Json.array items).child? (.key (ofNat position).asKey) = some item := by
  rw [asKey_ofNat]
  exact child?_of_hasChild short List.nodup_nil (.position (inDigits_toString position))
    (.item found)

/-- The key of an entry leads to its value, whatever its characters. -/
theorem child?_object {entries : List (String × Json)} (distinct : (Entries.keys entries).Nodup)
    {entry : String × Json} (member : entry ∈ entries) :
    (Json.object entries).child? (.key (Json.string entry.1).asKey) = some entry.2 :=
  child?_of_hasChild trivial distinct (.key (.key entry.1)) (.entry member)

end Json

/-! ## Items -/

namespace Path

variable {path : Path} {root : Json} {env : Env} {before after : List Token} {name : String}

/-- A path with one variable left is listed candidate by candidate. -/
theorem result_items_eq_itemsAlong
    (isOpen : Token.OpenAt (env.fill path.tokens) before name after) :
    Eval.result (path.items root env) = .ok (itemsAlong root env before name after).value := by
  rw [result_items, isOpen.variableNames_eq]
  dsimp only
  rw [isOpen.takeWhile_eq, isOpen.dropWhile_eq]
  rfl

/-- A path without a variable left is listed as one value. -/
theorem result_items_eq_itemsOf (closed : Token.variableNames (env.fill path.tokens) = []) :
    Eval.result (path.items root env) =
      .ok (env.itemsOf (root.follow (env.fill path.tokens)).value) := by
  rw [result_items, closed]

/-- A candidate leads where its child leads. -/
theorem value_follow_candidate {place candidate child : Json}
    (found : (root.follow before).value = some place)
    (step : place.child? (.key candidate.asKey) = some child) :
    (root.follow (before ++ .key candidate.asKey :: after)).value = (child.follow after).value := by
  rw [Json.value_follow_append, found, Option.bind_some, Json.value_follow_cons, step,
    Option.bind_some]

/-- No token leads on from a place that is neither an array nor an object. -/
theorem value_follow_of_childless {token : Token}
    (notArray : ∀ items, (root.follow before).value ≠ some (.array items))
    (notObject : ∀ entries, (root.follow before).value ≠ some (.object entries)) :
    (root.follow (before ++ token :: after)).value = none := by
  rw [Json.value_follow_append]
  cases found : (root.follow before).value with
  | none => rfl
  | some place =>
    rw [Option.bind_some, Json.value_follow_cons]
    cases place with
    | array items => exact absurd found (notArray items)
    | object entries => exact absurd found (notObject entries)
    | null => rfl
    | bool value => rfl
    | number value => rfl
    | string text => rfl

/-- The items of a path with one variable: the variable runs over the positions of an array and the
keys of an object, in order, and the items are those that the rest of the path leads to from there.
A place that is neither an array nor an object has one item, which is `null`. -/
theorem result_items_of_openAt (isOpen : Token.OpenAt (env.fill path.tokens) before name after)
    (short : root.Every Json.ShortArray) (distinct : root.DistinctKeys) :
    Eval.result (path.items root env) = .ok
      (match (root.follow before).value with
      | some (.array items) => items.zipIdx.flatMap fun child =>
          (env.bind name (.ofNat child.2)).itemsOf (child.1.follow after).value
      | some (.object entries) => entries.flatMap fun entry =>
          (env.bind name (.string entry.1)).itemsOf (entry.2.follow after).value
      | place => [⟨.null, env.bind name (Json.orNull place)⟩]) := by
  rw [result_items_eq_itemsAlong isOpen, value_itemsAlong]
  refine congrArg Except.ok ?_
  split
  · next items found =>
    have short := Json.every_here (Json.every_follow short found)
    have positions : Json.candidates (some (.array items)) =
        items.zipIdx.map fun child => .ofNat child.2 := by
      rw [Json.candidates, List.range_eq_range', ← List.zipIdx_map_snd, List.map_map]
      rfl
    rw [found, positions, List.flatMap_map]
    refine List.flatMap_congr fun child member => ?_
    have step := Json.child?_array short (List.mem_zipIdx_iff_getElem?.mp member)
    rw [value_follow_candidate found step]
  · next entries found =>
    have distinct := Json.every_here (Json.every_follow (Json.every_nodup_keys distinct) found)
    rw [found, Json.candidates, Entries.keys, List.map_map, List.flatMap_map]
    refine List.flatMap_congr fun entry member => ?_
    have step := Json.child?_object distinct member
    rw [← value_follow_candidate found step]
    rfl
  · next notArray notObject =>
    rw [Json.candidates_of_childless notArray notObject, List.flatMap_singleton,
      value_follow_of_childless notArray notObject]
    rfl

/-- Rows of an array, cells under keys of all kinds, and a number that nothing leads on from. -/
theorem result_items_of_openAt_rows :
    let cells : Json := .object [("", .array [.null]), ("0.1 ", .object [("x", .bool true)]),
      (":c", .string "s")]
    let root : Json := .object [("rows", .array [.object [("cells", cells)], .ofNat 7])]
    Eval.result ((Path.mk [.key "rows", .var ":row", .var ":part"]).items root
        ⟨[(":part", .string "cells")]⟩) =
      .ok ((Env.mk [(":part", .string "cells"), (":row", .ofNat 0)]).itemsOf (some cells) ++
        [⟨.null, ⟨[(":part", .string "cells"), (":row", .ofNat 1)]⟩⟩]) ∧
    Eval.result ((Path.mk [.key "rows", .var ":row", .key "cells", .var ":cell"]).items root
        ⟨[(":row", .ofNat 0)]⟩) =
      .ok [⟨.null, ⟨[(":row", .ofNat 0), (":cell", .string "")]⟩⟩,
        ⟨.object [(nameKey, .string "x"), (valueKey, .bool true)],
          ⟨[(":row", .ofNat 0), (":cell", .string "0.1 ")]⟩⟩,
        ⟨.string "s", ⟨[(":row", .ofNat 0), (":cell", .string ":c")]⟩⟩] ∧
    Eval.result ((Path.mk [.key "rows", .key "1", .var ":cell"]).items root .empty) =
      .ok [⟨.null, ⟨[(":cell", .ofNat 7)]⟩⟩] := by
  intro cells root
  have short : root.Every Json.ShortArray := by
    simp [root, cells, Json.Every, Json.EveryItem, Json.EveryEntry, Json.ShortArray, Json.ofNat,
      Token.positionLimit]
  have distinct : root.DistinctKeys := by
    simp [root, cells, Json.DistinctKeys, Json.DistinctKeysEntries, Json.DistinctKeysItems,
      Json.ofNat]
  refine ⟨?_, ?_, ?_⟩
  · have isOpen : Token.OpenAt (Env.fill ⟨[(":part", .string "cells")]⟩
        (Path.mk [.key "rows", .var ":row", .var ":part"]).tokens)
      [.key "rows"] ":row" [.key "cells"] := ⟨rfl, rfl, rfl⟩
    exact result_items_of_openAt isOpen short distinct
  · have isOpen : Token.OpenAt (Env.fill ⟨[(":row", .ofNat 0)]⟩
        (Path.mk [.key "rows", .var ":row", .key "cells", .var ":cell"]).tokens)
      [.key "rows", .key "0", .key "cells"] ":cell" [] := ⟨rfl, rfl, rfl⟩
    exact result_items_of_openAt isOpen short distinct
  · have isOpen : Token.OpenAt (Env.fill .empty
        (Path.mk [.key "rows", .key "1", .var ":cell"]).tokens)
      [.key "rows", .key "1"] ":cell" [] := ⟨rfl, rfl, rfl⟩
    exact result_items_of_openAt isOpen short distinct

/-! ## Environments of items -/

/-- An item binds nothing more than its path finds bound, or the one variable that is left. -/
theorem env_of_items {items : List Item} (listed : Eval.result (path.items root env) = .ok items) :
    ∀ item ∈ items, (Token.variableNames (env.fill path.tokens) = [] ∧ item.env = env) ∨
      ∃ name value, Token.variableNames (env.fill path.tokens) = [name] ∧
        env.get? name = none ∧ item.env = env.bind name value := by
  intro item member
  rw [result_items] at listed
  split at listed
  · next closed =>
    cases listed
    obtain ⟨part, _, rfl⟩ := List.mem_map.mp member
    exact Or.inl ⟨closed, rfl⟩
  · next name one =>
    cases listed
    obtain ⟨before, after, isOpen⟩ := Token.openAt_of_variableNames one
    rw [value_itemsAlong] at member
    obtain ⟨candidate, _, member⟩ := List.mem_flatMap.mp member
    obtain ⟨part, _, rfl⟩ := List.mem_map.mp member
    exact Or.inr ⟨name, candidate, one, Env.get?_eq_none_of_openAt isOpen, rfl⟩
  · cases listed

/-- What was bound outside has the same value in the environment of an item. -/
theorem get?_of_items {items : List Item} (listed : Eval.result (path.items root env) = .ok items)
    {item : Item} (member : item ∈ items) {other : String} (bound : env.binds other = true) :
    item.env.get? other = env.get? other := by
  rcases env_of_items listed item member with ⟨_, same⟩ | ⟨name, value, _, unbound, same⟩
  · rw [same]
  · have apart : name ≠ other := by
      rintro rfl
      rw [Env.binds, unbound] at bound
      cases bound
    rw [same, Env.get?_bind, if_neg apart]

/-- What is bound for an item was bound outside or is the one variable that is left. -/
theorem binds_of_items {items : List Item} (listed : Eval.result (path.items root env) = .ok items)
    {item : Item} (member : item ∈ items) {other : String} (bound : item.env.binds other = true) :
    env.binds other = true ∨ Token.variableNames (env.fill path.tokens) = [other] := by
  rcases env_of_items listed item member with ⟨_, same⟩ | ⟨name, value, one, _, same⟩
  · exact Or.inl (same ▸ bound)
  · by_cases own : name = other
    · exact Or.inr (own ▸ one)
    · rw [same, Env.binds, Env.get?_bind, if_neg own] at bound
      exact Or.inl bound

/-- Where a candidate is bound already, the path is followed to it. -/
theorem result_items_bind (isOpen : Token.OpenAt (env.fill path.tokens) before name after)
    (candidate : Json) :
    Eval.result (path.items root (env.bind name candidate)) =
      .ok ((env.bind name candidate).itemsOf
        (root.follow (before ++ .key candidate.asKey :: after)).value) := by
  have filled := Env.fill_bind_of_openAt isOpen candidate
  have closed : Token.variableNames ((env.bind name candidate).fill path.tokens) = [] := by
    rw [filled, Token.variableNames_append, isOpen.before]
    exact isOpen.after
  rw [result_items_eq_itemsOf closed, filled]

/-- The items of a path with one variable fall into groups, one for each candidate in order. A group
is what the same path lists once the candidate is bound, as it is inside the rule that is repeated
for an item of the group. Whatever the path, nothing that was bound outside is bound to another
value, and nothing but the one variable that is left is bound in addition. -/
theorem result_items_eq_flatMap_bind (path : Path) (root : Json) (env : Env) :
    (∀ before name after, Token.OpenAt (env.fill path.tokens) before name after →
      ∃ group : Json → List Item,
        Eval.result (path.items root env) =
          .ok ((Json.candidates (root.follow before).value).flatMap group) ∧
        ∀ candidate,
          Eval.result (path.items root (env.bind name candidate)) = .ok (group candidate) ∧
          ∀ item ∈ group candidate, item.env = env.bind name candidate ∧
            Eval.result (path.items root item.env) = .ok (group candidate)) ∧
    ∀ items, Eval.result (path.items root env) = .ok items → ∀ item ∈ items,
      (∀ other, env.binds other = true → item.env.get? other = env.get? other) ∧
      ∀ other, item.env.binds other = true →
        env.binds other = true ∨ Token.variableNames (env.fill path.tokens) = [other] := by
  refine ⟨fun before name after isOpen => ?_, fun items listed item member =>
    ⟨fun _ => get?_of_items listed member, fun _ => binds_of_items listed member⟩⟩
  let group (candidate : Json) : List Item := (env.bind name candidate).itemsOf
    (root.follow (before ++ .key candidate.asKey :: after)).value
  have bound (candidate : Json) :
      Eval.result (path.items root (env.bind name candidate)) = .ok (group candidate) :=
    result_items_bind isOpen candidate
  refine ⟨group, ?_, fun candidate => ⟨bound candidate, fun item member => ?_⟩⟩
  · rw [result_items_eq_itemsAlong isOpen, value_itemsAlong]
  · obtain ⟨part, _, rfl⟩ := List.mem_map.mp member
    exact ⟨rfl, bound candidate⟩

/-- Cells under the keys of two rows, where the name of the column is bound outside. -/
theorem result_items_eq_flatMap_bind_rows :
    let root : Json := .object [("rows", .object [("", .object [("cells", .array [.null])]),
      (":row", .bool true)])]
    let path : Path := ⟨[.key "rows", .var ":row", .var ":part"]⟩
    let env : Env := ⟨[(":part", .string "cells")]⟩
    Token.OpenAt (env.fill path.tokens) [.key "rows"] ":row" [.key "cells"] ∧
      ∃ group : Json → List Item,
        Eval.result (path.items root env) =
          .ok (group (.string "") ++ group (.string ":row")) ∧
        Eval.result (path.items root (env.bind ":row" (.string ":row"))) =
          .ok (group (.string ":row")) := by
  intro root path env
  have isOpen : Token.OpenAt (env.fill path.tokens) [.key "rows"] ":row" [.key "cells"] :=
    ⟨rfl, rfl, rfl⟩
  obtain ⟨group, all, each⟩ := (result_items_eq_flatMap_bind path root env).1 _ _ _ isOpen
  have candidates : Json.candidates (root.follow [.key "rows"]).value =
      [.string "", .string ":row"] := rfl
  refine ⟨isOpen, group, ?_, (each _).1⟩
  rw [all, candidates, List.flatMap_cons, List.flatMap_singleton]

end Path

end Reshape
