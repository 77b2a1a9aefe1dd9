import Shiba.FileSystem

/-!
# Paths in their normal form

The normal form of a path is made of plain components behind its leading slashes, so it is its own
normal form.  When the last component of a path has the ending of module files, the normal form keeps
that component; then the directory and the name it splits into join to the normal form without the
ending.
-/

namespace Shiba.Path

/-! ## Components -/

/-- A component that stays in a normal form. -/
structure Plain (part : String) : Prop where
  nonempty : part ≠ ""
  notHere : part ≠ "."
  notAbove : part ≠ ".."
  whole : '/' ∉ part.toList

theorem splitSlash_cons_of_ne {c : Char} (cs : List Char) (plain : c ≠ '/') :
    ∃ part rest, splitSlash cs = part :: rest ∧ splitSlash (c :: cs) = (c :: part) :: rest := by
  have some : ∀ cs, splitSlash cs ≠ [] := by
    intro cs
    fun_cases splitSlash cs <;> simp [*]
  cases parts : splitSlash cs with
  | nil => exact absurd parts (some cs)
  | cons part rest =>
    refine ⟨part, rest, rfl, ?_⟩
    rw [splitSlash, parts]
    exact plain

theorem splitSlash_append (left right : List Char) :
    splitSlash (left ++ '/' :: right) = splitSlash left ++ splitSlash right := by
  induction left with
  | nil => rfl
  | cons c left ih =>
    by_cases isSlash : c = '/'
    · subst isSlash
      rw [List.cons_append, splitSlash, ih]
      rfl
    · obtain ⟨part, rest, parts, whole⟩ := splitSlash_cons_of_ne left isSlash
      obtain ⟨part', rest', parts', whole'⟩ := splitSlash_cons_of_ne (left ++ '/' :: right) isSlash
      rw [ih, parts, List.cons_append] at parts'
      cases parts'
      rw [List.cons_append, whole', whole]
      rfl

theorem splitSlash_of_notMem {cs : List Char} (none : '/' ∉ cs) : splitSlash cs = [cs] := by
  induction cs with
  | nil => rfl
  | cons c cs ih =>
    obtain ⟨isPlain, later⟩ := not_or.1 (mt List.mem_cons.2 none)
    obtain ⟨part, rest, parts, whole⟩ := splitSlash_cons_of_ne cs (Ne.symm isPlain)
    rw [ih later] at parts
    cases parts
    exact whole

theorem notMem_of_mem_splitSlash {cs part : List Char} (member : part ∈ splitSlash cs) :
    '/' ∉ part := by
  induction cs generalizing part with
  | nil =>
    cases List.mem_singleton.1 member
    exact List.not_mem_nil
  | cons c cs ih =>
    by_cases isSlash : c = '/'
    · subst isSlash
      rcases List.mem_cons.1 member with rfl | later
      · exact List.not_mem_nil
      · exact ih later
    · obtain ⟨part', rest, parts, whole⟩ := splitSlash_cons_of_ne cs isSlash
      rw [whole] at member
      rcases List.mem_cons.1 member with rfl | later
      · have none := ih (parts ▸ List.mem_cons_self)
        exact fun isIn => (List.mem_cons.1 isIn).elim (fun same => isSlash same.symm) none
      · exact ih (parts ▸ List.mem_cons_of_mem _ later)

theorem components_append (left right : String) :
    components (left ++ "/" ++ right) = components left ++ components right := by
  simp [components, splitSlash_append]

theorem components_of_notMem {part : String} (none : '/' ∉ part.toList) :
    components part = [part] := by
  simp [components, splitSlash_of_notMem none]

theorem components_intercalate {parts : List String} (some : parts ≠ [])
    (whole : ∀ part ∈ parts, '/' ∉ part.toList) : components ("/".intercalate parts) = parts := by
  induction parts with
  | nil => exact absurd rfl some
  | cons part parts ih =>
    have first := components_of_notMem (whole part List.mem_cons_self)
    cases parts with
    | nil => simpa using first
    | cons next parts =>
      rw [String.intercalate_cons_cons, components_append, first,
        ih nofun fun part' member => whole part' (List.mem_cons_of_mem _ member)]
      rfl

/-! ## Collapsing -/

theorem collapse_append_plain {part : String} (plain : Plain part) (parts kept : List String) :
    collapse (parts ++ [part]) kept = collapse parts kept ++ [part] := by
  induction parts generalizing kept with
  | nil => simp [collapse, plain.nonempty, plain.notHere, plain.notAbove]
  | cons first parts ih =>
    simp only [List.cons_append, collapse]
    split
    · exact ih kept
    · split
      · exact ih kept.tail
      · exact ih (first :: kept)

theorem collapse_of_plain {parts : List String} (plain : ∀ part ∈ parts, Plain part)
    (kept : List String) : collapse parts kept = kept.reverse ++ parts := by
  induction parts generalizing kept with
  | nil => simp [collapse]
  | cons part parts ih =>
    have first := plain part List.mem_cons_self
    rw [collapse, if_neg (not_or.2 ⟨first.nonempty, first.notHere⟩), if_neg first.notAbove,
      ih fun part' member => plain part' (List.mem_cons_of_mem _ member)]
    simp

theorem plain_of_mem_collapse {parts kept : List String} (whole : ∀ part ∈ parts, '/' ∉ part.toList)
    (plain : ∀ part ∈ kept, Plain part) : ∀ part ∈ collapse parts kept, Plain part := by
  induction parts generalizing kept with
  | nil =>
    intro part member
    exact plain part (List.mem_reverse.1 member)
  | cons first parts ih =>
    have later := fun part' member => whole part' (List.mem_cons_of_mem _ member)
    rw [collapse]
    split
    · exact ih later plain
    · next notDropped =>
      obtain ⟨nonempty, notHere⟩ := not_or.1 notDropped
      split
      · exact ih later fun part member => plain part (List.mem_of_mem_tail member)
      · next notAbove =>
        apply ih later
        intro part member
        rcases List.mem_cons.1 member with rfl | old
        · exact ⟨nonempty, notHere, notAbove, whole part List.mem_cons_self⟩
        · exact plain part old

theorem plain_of_mem_normal (path : String) :
    ∀ part ∈ collapse (components path) [], Plain part := by
  apply plain_of_mem_collapse
  · intro part member
    obtain ⟨cs, listed, rfl⟩ := List.mem_map.1 member
    rw [String.toList_ofList]
    exact notMem_of_mem_splitSlash listed
  · exact nofun

/-! ## Normal forms -/

theorem leading_eq (path : String) : leading path = "/" ∨ leading path = "//" := by
  rw [leading]
  split <;> simp

theorem Plain.exists_cons {part : String} (plain : Plain part) :
    ∃ c cs, part.toList = c :: cs ∧ c ≠ '/' := by
  cases chars : part.toList with
  | nil => exact absurd (String.toList_eq_nil_iff.1 chars) plain.nonempty
  | cons c cs =>
    refine ⟨c, cs, rfl, ?_⟩
    rintro rfl
    exact plain.whole (chars ▸ List.mem_cons_self)

theorem exists_cons_intercalate {parts : List String} (some : parts ≠ [])
    (plain : ∀ part ∈ parts, Plain part) :
    ∃ c cs, ("/".intercalate parts).toList = c :: cs ∧ c ≠ '/' := by
  cases parts with
  | nil => exact absurd rfl some
  | cons part parts =>
    obtain ⟨c, cs, chars, isPlain⟩ := (plain part List.mem_cons_self).exists_cons
    cases parts with
    | nil => exact ⟨c, cs, by simpa using chars, isPlain⟩
    | cons next parts => exact ⟨c, _, by simp [String.intercalate_cons_cons, chars]; rfl, isPlain⟩

theorem normalize_of_plain {slashes : String} {parts : List String}
    (isLeading : slashes = "/" ∨ slashes = "//") (some : parts ≠ [])
    (plain : ∀ part ∈ parts, Plain part) :
    normalize (slashes ++ "/".intercalate parts) = slashes ++ "/".intercalate parts := by
  have inside := components_intercalate some fun part member => (plain part member).whole
  have kept := collapse_of_plain plain []
  obtain ⟨c, cs, chars, isPlain⟩ := exists_cons_intercalate some plain
  rcases isLeading with rfl | rfl
  · have parts' : components ("/" ++ "/".intercalate parts) = "" :: parts := by
      have split := components_append "" ("/".intercalate parts)
      rw [inside] at split
      simpa [components, splitSlash] using split
    rw [normalize, parts', collapse, if_pos (.inl rfl), kept]
    simp [leading, chars, isPlain]
  · have parts' : components ("//" ++ "/".intercalate parts) = "" :: "" :: parts := by
      have split := components_append "/" ("/".intercalate parts)
      rw [inside] at split
      simpa [components, splitSlash] using split
    rw [normalize, parts', collapse, if_pos (.inl rfl), collapse, if_pos (.inl rfl), kept]
    simp [leading, chars, isPlain]

/-- The normal form of a path is its own normal form. -/
theorem normalize_normalize (path : String) : normalize (normalize path) = normalize path := by
  by_cases isRoot : collapse (components path) [] = []
  · have root : normalize path = leading path := by simp [normalize, isRoot]
    rw [root]
    rcases leading_eq path with slashes | slashes <;> rw [slashes] <;> decide
  · exact normalize_of_plain (leading_eq path) isRoot (plain_of_mem_normal path)

/-! ## Paths of module files -/

/-- A path with the ending of module files. -/
def HasExtension (path : String) : Prop := extension.toList <:+ path.toList

instance (path : String) : Decidable (HasExtension path) :=
  inferInstanceAs (Decidable (extension.toList <:+ path.toList))

theorem hasExtension_withExtension (path : String) : HasExtension (withExtension path) := by
  rw [HasExtension, withExtension]
  split
  · next ends => exact List.isSuffixOf_iff_suffix.1 ends
  · rw [String.toList_append]
    exact List.suffix_append _ _

theorem HasExtension.join {name : String} (ends : HasExtension name) (directory : String) :
    HasExtension (join directory name) := by
  rw [Path.join]
  split
  · exact ends
  · split
    · rw [HasExtension, String.toList_append]
      exact List.IsSuffix.trans ends (List.suffix_append _ _)
    · rw [HasExtension, String.toList_append]
      exact List.IsSuffix.trans ends (List.suffix_append _ _)

theorem dropExtension_of_toList {path : String} {front : List Char}
    (chars : path.toList = front ++ extension.toList) : dropExtension path = String.ofList front := by
  have size : path.length - extension.length = front.length := by
    rw [← String.length_toList, ← String.length_toList, chars, List.length_append]
    exact Nat.add_sub_cancel ..
  rw [dropExtension, size, chars, List.take_left]

/-- What has no slash is at the end of the last component. -/
theorem exists_splitSlash_append (front ending : List Char) (none : '/' ∉ ending) :
    ∃ before part, splitSlash (front ++ ending) = before ++ [part ++ ending] := by
  induction front with
  | nil => exact ⟨[], [], splitSlash_of_notMem none⟩
  | cons c front ih =>
    obtain ⟨before, part, parts⟩ := ih
    by_cases isSlash : c = '/'
    · subst isSlash
      refine ⟨[] :: before, part, ?_⟩
      rw [List.cons_append, splitSlash, parts]
      rfl
    · obtain ⟨part', rest, parts', whole⟩ := splitSlash_cons_of_ne (front ++ ending) isSlash
      rw [parts] at parts'
      rw [List.cons_append, whole]
      cases before with
      | nil =>
        cases parts'
        exact ⟨[], c :: part, rfl⟩
      | cons first before =>
        cases parts'
        exact ⟨(c :: part') :: before, part, rfl⟩

theorem plain_of_hasExtension {part : String} (ends : HasExtension part)
    (whole : '/' ∉ part.toList) : Plain part := by
  refine ⟨?_, ?_, ?_, whole⟩
  all_goals
    rintro rfl
    exact absurd ends (by decide)

/-- The last component of a module file stays in the normal form of its path. -/
theorem exists_normal_parts {path : String} (ends : HasExtension path) :
    ∃ before part, HasExtension part ∧ collapse (components path) [] = before ++ [part] := by
  rcases ends with ⟨front, chars⟩
  obtain ⟨before, part, parts⟩ := exists_splitSlash_append front extension.toList (by decide)
  have listed : components path = before.map String.ofList ++ [String.ofList (part ++ extension.toList)] := by
    rw [components, ← chars, parts, List.map_append]
    rfl
  have ends' : HasExtension (String.ofList (part ++ extension.toList)) := by
    rw [HasExtension, String.toList_ofList]
    exact List.suffix_append _ _
  have whole : '/' ∉ (String.ofList (part ++ extension.toList)).toList := by
    rw [String.toList_ofList]
    exact notMem_of_mem_splitSlash (parts ▸ List.mem_append_right _ List.mem_cons_self)
  refine ⟨collapse (before.map String.ofList) [], _, ends', ?_⟩
  rw [listed, collapse_append_plain (plain_of_hasExtension ends' whole)]

theorem intercalate_concat {parts : List String} (some : parts ≠ []) (part : String) :
    "/".intercalate (parts ++ [part]) = "/".intercalate parts ++ "/" ++ part := by
  induction parts with
  | nil => exact absurd rfl some
  | cons first parts ih =>
    cases parts with
    | nil => simp [String.intercalate_cons_cons]
    | cons next parts =>
      rw [List.cons_append, List.cons_append, String.intercalate_cons_cons, ← List.cons_append, ih nofun,
        String.intercalate_cons_cons]
      simp [String.append_assoc]

/-- A directory as it stands before the slash behind it: the root, or a path that ends in no slash. -/
def Bare (directory : String) : Prop :=
  directory = "" ∨ directory = "/" ∨ ∃ front c, directory.toList = front ++ [c] ∧ c ≠ '/'

theorem bare_append_intercalate (slashes : String) {parts : List String} (some : parts ≠ [])
    (plain : ∀ part ∈ parts, Plain part) : Bare (slashes ++ "/".intercalate parts) := by
  obtain ⟨before, last, rfl⟩ : ∃ before last, parts = before ++ [last] :=
    ⟨_, _, (List.dropLast_concat_getLast some).symm⟩
  have isPlain := plain last (List.mem_append_right _ List.mem_cons_self)
  obtain ⟨front, c, chars⟩ : ∃ front c, last.toList = front ++ [c] := by
    have chars : last.toList ≠ [] := mt String.toList_eq_nil_iff.1 isPlain.nonempty
    exact ⟨_, _, (List.dropLast_concat_getLast chars).symm⟩
  have notSlash : c ≠ '/' := by
    rintro rfl
    exact isPlain.whole (chars ▸ List.mem_append_right _ List.mem_cons_self)
  obtain ⟨rest, whole⟩ : ∃ rest, "/".intercalate (before ++ [last]) = rest ++ last := by
    by_cases isFirst : before = []
    · exact ⟨"", by simp [isFirst]⟩
    · exact ⟨_, intercalate_concat isFirst last⟩
  refine .inr (.inr ⟨slashes.toList ++ rest.toList ++ front, c, ?_, notSlash⟩)
  simp [whole, chars]

theorem exists_normal_directory {path : String} (ends : HasExtension path) :
    ∃ directory part, normalize path = directory ++ "/" ++ part ∧ Bare directory ∧
      HasExtension part ∧ '/' ∉ part.toList := by
  obtain ⟨before, part, ends', parts⟩ := exists_normal_parts ends
  have plain := plain_of_mem_normal path
  rw [parts] at plain
  have whole := (plain part (List.mem_append_right _ List.mem_cons_self)).whole
  rw [normalize, parts]
  by_cases isFirst : before = []
  · subst isFirst
    rcases leading_eq path with slashes | slashes
    · exact ⟨"", part, by simp [slashes], .inl rfl, ends', whole⟩
    · exact ⟨"/", part, by simp [slashes], .inr (.inl rfl), ends', whole⟩
  · refine ⟨leading path ++ "/".intercalate before, part, ?_, ?_, ends', whole⟩
    · rw [intercalate_concat isFirst]
      simp [String.append_assoc]
    · exact bare_append_intercalate _ isFirst fun part' member =>
        plain part' (List.mem_append_left _ member)

theorem HasExtension.normalize {path : String} (ends : HasExtension path) :
    HasExtension (normalize path) := by
  obtain ⟨directory, part, normal, -, ends', -⟩ := exists_normal_directory ends
  rw [normal, HasExtension, String.toList_append]
  exact List.IsSuffix.trans ends' (List.suffix_append _ _)

theorem split_append {part : String} (directory : String) (whole : '/' ∉ part.toList) :
    split (directory ++ "/" ++ part) =
      (String.ofList (trimSlashes (directory.toList ++ ['/'])), part) := by
  have plain : ∀ c ∈ part.toList.reverse, (!decide (c = '/')) = true := by
    intro c member
    simp only [Bool.not_eq_true', decide_eq_false_iff_not]
    rintro rfl
    exact whole (List.mem_reverse.1 member)
  simp [split, List.takeWhile_append_of_pos plain, List.dropWhile_append_of_pos plain]

theorem join_trimSlashes {directory name : String} (bare : Bare directory)
    (whole : '/' ∉ name.toList) :
    join (String.ofList (trimSlashes (directory.toList ++ ['/']))) name = directory ++ "/" ++ name := by
  have first : name.toList.head? ≠ some '/' := fun isSlash => whole (List.mem_of_head? isSlash)
  rw [join, if_neg first]
  rcases bare with rfl | rfl | ⟨front, c, chars, notSlash⟩
  · simp [trimSlashes]
  · simp [trimSlashes]
  · have trimmed : trimSlashes (directory.toList ++ ['/']) = directory.toList := by
      simp [trimSlashes, chars, notSlash]
    have nonempty : directory ≠ "" := by
      rintro rfl
      simp at chars
    rw [trimmed, String.ofList_toList, if_neg]
    simp [chars, notSlash, nonempty]

/-- The directory and the name of a module file make up the normal form of its path without the
ending. -/
theorem join_split_normalize {path : String} (ends : HasExtension path) :
    join (split (normalize path)).1 (dropExtension (split (normalize path)).2) =
      dropExtension (normalize path) := by
  obtain ⟨directory, part, normal, bare, ends', whole⟩ := exists_normal_directory ends
  rcases ends' with ⟨front, chars⟩
  have name := dropExtension_of_toList chars.symm
  have short : '/' ∉ (String.ofList front).toList := by
    rw [String.toList_ofList]
    exact fun member => whole (chars ▸ List.mem_append_left _ member)
  have chars' : (directory ++ "/" ++ part).toList =
      directory.toList ++ ['/'] ++ front ++ extension.toList := by
    simp [← chars]
  have all : dropExtension (directory ++ "/" ++ part) = directory ++ "/" ++ String.ofList front := by
    rw [dropExtension_of_toList chars']
    simp [String.append_assoc]
  rw [normal, split_append directory whole, name, join_trimSlashes bare short, all]

end Shiba.Path
