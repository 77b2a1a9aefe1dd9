import Shiba.Token.Scan

/-!
# Reading makes progress

Reading a token takes at least one character off the front of the text, unless the text has
ended.  So the number of characters left bounds the number of tokens to come, and it does not
matter with how much more fuel than that a text is scanned.

* `Reader.length_rest_read_lt`: a token other than the end of input shortens the text.
* `Tokens.scan_eq_scan`: two amounts of fuel above the number of characters give the same tokens.
-/

namespace Shiba

namespace Reader

/-- Dropping characters never makes a text longer. -/
theorem length_dropWhile_le (p : Char → Bool) (cs : List Char) :
    (cs.dropWhile p).length ≤ cs.length :=
  (List.dropWhile_sublist p).length_le

/-- Dropping characters of a class takes the first one away when it belongs to the class. -/
theorem length_dropWhile_cons_le {p : Char → Bool} {c : Char} (h : p c = true) (cs : List Char) :
    ((c :: cs).dropWhile p).length ≤ cs.length := by
  rw [List.dropWhile_cons_of_pos h]
  exact length_dropWhile_le p cs

/-- Reading the rest of a string leaves no more than there was. -/
theorem length_rest_readString_le (opening : Position) (cs : List Char) (p : Position)
    (done : List Char) : (readString opening cs p done).2.rest.length ≤ cs.length := by
  fun_induction readString opening cs p done <;> simp_all <;> omega

/-- A punctuator takes at least one character. -/
theorem length_rest_punctuator?_lt {cs passed rest : List Char} {mark : Punctuator}
    (h : punctuator? cs = some (mark, passed, rest)) : rest.length < cs.length := by
  unfold punctuator? at h
  split at h
  · split at h
    · cases h
      simp only [List.length_cons]
      omega
    · obtain ⟨_, _, same⟩ := Option.map_eq_some_iff.mp h
      cases same
      simp
  · obtain ⟨_, _, same⟩ := Option.map_eq_some_iff.mp h
    cases same
    simp
  · cases h

/-- Reading a lexeme takes at least one character off a text that has not ended. -/
theorem length_rest_readLexeme_le {c : Char} {cs : List Char} {p : Position} {lexeme : Lexeme}
    (h : (readLexeme (c :: cs) p).1 = .ok lexeme) :
    (readLexeme (c :: cs) p).2.rest.length ≤ cs.length := by
  simp only [readLexeme] at h ⊢
  split
  · exact length_rest_readString_le p cs _ []
  · split
    · rename_i digit
      have number : isNumberChar c = true := by simp [isNumberChar, digit]
      unfold readNumber
      dsimp only
      split <;> exact length_dropWhile_cons_le number cs
    · split
      · exact Nat.le_refl _
      · split
        · exact length_dropWhile_le _ cs
        · split
          · rename_i found
            exact Nat.le_of_lt_succ (length_rest_punctuator?_lt found)
          · split
            · rename_i letter
              exact length_dropWhile_cons_le letter cs
            · simp_all

/-- Reading a token that is not the end of input takes at least one character. -/
theorem length_rest_read_lt {r left : Reader} {t : Token} (h : r.read = (.ok t, left))
    (ht : t.lexeme ≠ .eof) : left.rest.length < r.rest.length := by
  have blanks := length_dropWhile_le isBlank r.rest
  simp only [read, skipBlanks, past, Prod.mk.injEq] at h
  obtain ⟨result, rfl⟩ := h
  cases found : r.rest.dropWhile isBlank with
  | nil =>
    rw [found] at result
    cases result
    exact absurd rfl ht
  | cons c cs =>
    rw [found] at result blanks
    cases lexeme : (readLexeme (c :: cs) (r.position.afterAll (r.rest.takeWhile isBlank))).1 with
    | error failure => simp [lexeme, Except.map] at result
    | ok _ =>
      have progress := length_rest_readLexeme_le lexeme
      simp only [List.length_cons] at blanks
      omega

end Reader

/-- More fuel than there are characters left changes nothing. -/
theorem Tokens.scan_eq_scan {m n : Nat} {r : Reader} (hm : r.rest.length < m)
    (hn : r.rest.length < n) : Tokens.scan m r = Tokens.scan n r := by
  induction m generalizing n r with
  | zero => omega
  | succ m ih =>
    cases n with
    | zero => omega
    | succ n =>
      unfold Tokens.scan
      split
      · rfl
      · rename_i t left found
        split
        · rfl
        · rename_i other
          have progress := Reader.length_rest_read_lt found other
          rw [ih (n := n) (by omega) (by omega)]

end Shiba
