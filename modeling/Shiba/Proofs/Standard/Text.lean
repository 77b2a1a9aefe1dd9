import Mathlib.Data.Fintype.Basic
import Shiba.Library.Seq
import Shiba.Program

/-!
# The standard module as a tree

What the text of the standard module `seq` says: a comment and five functions.

* `Stmt.same?`, `Program.same?`: whether two trees are equal, with a proof.  Trees hold floats, so that their
  equality cannot be decided; it can be confirmed for trees without floats.
* `Library.seqProgram`: the tree of the module, with the positions in its text.
* `Library.seq_program`: the text is read as this tree.
-/

namespace Shiba

/-! ## Confirming that trees are equal -/

/-- The proof that two literals are equal.  Floats are not compared. -/
def Literal.same? : (a b : Literal) → Option (PLift (a = b))
  | .int n, .int n' => if h : n = n' then some ⟨by rw [h]⟩ else none
  | .str s, .str s' => if h : s = s' then some ⟨by rw [h]⟩ else none
  | .bool b, .bool b' => if h : b = b' then some ⟨by rw [h]⟩ else none
  | _, _ => none

namespace Expr

mutual

/-- The proof that two expressions are equal, if they are and hold no float. -/
def same? : (a b : Expr) → Option (PLift (a = b))
  | .literal p v, .literal p' v' => do
    let ⟨value⟩ ← v.same? v'
    if h : p = p' then some ⟨by rw [h, value]⟩ else none
  | .list p es, .list p' es' => do
    let ⟨elements⟩ ← sameAll? es es'
    if h : p = p' then some ⟨by rw [h, elements]⟩ else none
  | .dict p es, .dict p' es' => do
    let ⟨entries⟩ ← sameEntries? es es'
    if h : p = p' then some ⟨by rw [h, entries]⟩ else none
  | .ident p n, .ident p' n' => if h : p = p' ∧ n = n' then some ⟨by rw [h.1, h.2]⟩ else none
  | .index p t i, .index p' t' i' => do
    let ⟨target⟩ ← same? t t'
    let ⟨key⟩ ← same? i i'
    if h : p = p' then some ⟨by rw [h, target, key]⟩ else none
  | .slice p t a b, .slice p' t' a' b' => do
    let ⟨target⟩ ← same? t t'
    let ⟨first⟩ ← sameBound? a a'
    let ⟨last⟩ ← sameBound? b b'
    if h : p = p' then some ⟨by rw [h, target, first, last]⟩ else none
  | .select p t n, .select p' t' n' => do
    let ⟨target⟩ ← same? t t'
    if h : p = p' ∧ n = n' then some ⟨by rw [h.1, h.2, target]⟩ else none
  | .unary p o e, .unary p' o' e' => do
    let ⟨operand⟩ ← same? e e'
    if h : p = p' ∧ o = o' then some ⟨by rw [h.1, h.2, operand]⟩ else none
  | .binary p o l r, .binary p' o' l' r' => do
    let ⟨left⟩ ← same? l l'
    let ⟨right⟩ ← same? r r'
    if h : p = p' ∧ o = o' then some ⟨by rw [h.1, h.2, left, right]⟩ else none
  | .structInit p n b fs, .structInit p' n' b' fs' => do
    let ⟨fields⟩ ← sameFields? fs fs'
    if h : p = p' ∧ n = n' ∧ b = b' then some ⟨by rw [h.1, h.2.1, h.2.2, fields]⟩ else none
  | .call p c as, .call p' c' as' => do
    let ⟨callee⟩ ← same? c c'
    let ⟨args⟩ ← sameAll? as as'
    if h : p = p' then some ⟨by rw [h, callee, args]⟩ else none
  | _, _ => none

/-- The proof that two lists of expressions are equal. -/
def sameAll? : (as bs : List Expr) → Option (PLift (as = bs))
  | [], [] => some ⟨rfl⟩
  | a :: as, b :: bs => do
    let ⟨head⟩ ← same? a b
    let ⟨tail⟩ ← sameAll? as bs
    some ⟨by rw [head, tail]⟩
  | _, _ => none

/-- The proof that two lists of entries are equal. -/
def sameEntries? : (as bs : List (Expr × Expr)) → Option (PLift (as = bs))
  | [], [] => some ⟨rfl⟩
  | (k, v) :: as, (k', v') :: bs => do
    let ⟨key⟩ ← same? k k'
    let ⟨value⟩ ← same? v v'
    let ⟨tail⟩ ← sameEntries? as bs
    some ⟨by rw [key, value, tail]⟩
  | _, _ => none

/-- The proof that two lists of fields are equal. -/
def sameFields? : (as bs : List (Ident × Expr)) → Option (PLift (as = bs))
  | [], [] => some ⟨rfl⟩
  | (n, v) :: as, (n', v') :: bs => do
    let ⟨value⟩ ← same? v v'
    let ⟨tail⟩ ← sameFields? as bs
    if h : n = n' then some ⟨by rw [h, value, tail]⟩ else none
  | _, _ => none

/-- The proof that two bounds of slices are equal. -/
def sameBound? : (a b : Option Expr) → Option (PLift (a = b))
  | none, none => some ⟨rfl⟩
  | some a, some b => do
    let ⟨bound⟩ ← same? a b
    some ⟨by rw [bound]⟩
  | _, _ => none

end

end Expr

namespace Stmt

mutual

/-- The proof that two statements are equal, if they are and hold no float. -/
def same? : (a b : Stmt) → Option (PLift (a = b))
  | .comment p t, .comment p' t' => if h : p = p' ∧ t = t' then some ⟨by rw [h.1, h.2]⟩ else none
  | .importModule p t, .importModule p' t' => if h : p = p' ∧ t = t' then some ⟨by rw [h.1, h.2]⟩ else none
  | .expr e, .expr e' => do
    let ⟨value⟩ ← e.same? e'
    some ⟨by rw [value]⟩
  | .assign p o l r, .assign p' o' l' r' => do
    let ⟨left⟩ ← Expr.sameAll? l l'
    let ⟨right⟩ ← Expr.sameAll? r r'
    if h : p = p' ∧ o = o' then some ⟨by rw [h.1, h.2, left, right]⟩ else none
  | .conditional p bs o, .conditional p' bs' o' => do
    let ⟨branches⟩ ← sameBranches? bs bs'
    let ⟨otherwise⟩ ← sameOtherwise? o o'
    if h : p = p' then some ⟨by rw [h, branches, otherwise]⟩ else none
  | .forIn p t c e b, .forIn p' t' c' e' b' => do
    let ⟨target⟩ ← t.same? t'
    let ⟨body⟩ ← sameAll? b b'
    if h : p = p' ∧ c = c' ∧ e = e' then some ⟨by rw [h.1, h.2.1, h.2.2, target, body]⟩ else none
  | .loop p e b, .loop p' e' b' => do
    let ⟨condition⟩ ← e.same? e'
    let ⟨body⟩ ← sameAll? b b'
    if h : p = p' then some ⟨by rw [h, condition, body]⟩ else none
  | .function d, .function d' => do
    let ⟨decl⟩ ← sameDecl? d d'
    some ⟨by rw [decl]⟩
  | .structDecl p n fs ds, .structDecl p' n' fs' ds' => do
    let ⟨methods⟩ ← sameDecls? ds ds'
    if h : p = p' ∧ n = n' ∧ fs = fs' then some ⟨by rw [h.1, h.2.1, h.2.2, methods]⟩ else none
  | .returnValue p e, .returnValue p' e' => do
    let ⟨value⟩ ← Expr.sameBound? e e'
    if h : p = p' then some ⟨by rw [h, value]⟩ else none
  | .breakLoop p, .breakLoop p' => if h : p = p' then some ⟨by rw [h]⟩ else none
  | .continueLoop p, .continueLoop p' => if h : p = p' then some ⟨by rw [h]⟩ else none
  | _, _ => none

/-- The proof that two declarations are equal. -/
def sameDecl? : (a b : FunctionDecl) → Option (PLift (a = b))
  | .mk p n ps b, .mk p' n' ps' b' => do
    let ⟨body⟩ ← sameAll? b b'
    if h : p = p' ∧ n = n' ∧ ps = ps' then some ⟨by rw [h.1, h.2.1, h.2.2, body]⟩ else none

/-- The proof that two blocks are equal. -/
def sameAll? : (as bs : List Stmt) → Option (PLift (as = bs))
  | [], [] => some ⟨rfl⟩
  | a :: as, b :: bs => do
    let ⟨head⟩ ← same? a b
    let ⟨tail⟩ ← sameAll? as bs
    some ⟨by rw [head, tail]⟩
  | _, _ => none

/-- The proof that the branches of two conditionals are equal. -/
def sameBranches? : (as bs : List (Expr × List Stmt)) → Option (PLift (as = bs))
  | [], [] => some ⟨rfl⟩
  | (e, b) :: as, (e', b') :: bs => do
    let ⟨condition⟩ ← e.same? e'
    let ⟨block⟩ ← sameAll? b b'
    let ⟨tail⟩ ← sameBranches? as bs
    some ⟨by rw [condition, block, tail]⟩
  | _, _ => none

/-- The proof that two last branches are equal. -/
def sameOtherwise? : (a b : Option (List Stmt)) → Option (PLift (a = b))
  | none, none => some ⟨rfl⟩
  | some a, some b => do
    let ⟨block⟩ ← sameAll? a b
    some ⟨by rw [block]⟩
  | _, _ => none

/-- The proof that two lists of declarations are equal. -/
def sameDecls? : (as bs : List FunctionDecl) → Option (PLift (as = bs))
  | [], [] => some ⟨rfl⟩
  | a :: as, b :: bs => do
    let ⟨head⟩ ← sameDecl? a b
    let ⟨tail⟩ ← sameDecls? as bs
    some ⟨by rw [head, tail]⟩
  | _, _ => none

end

end Stmt

/-- The proof that two programs are equal, if they are and hold no float. -/
def Program.same? : (a b : Program) → Option (PLift (a = b))
  | ⟨ss, e⟩, ⟨ss', e'⟩ => do
    let ⟨statements⟩ ← Stmt.sameAll? ss ss'
    if h : e = e' then some ⟨by rw [h, statements]⟩ else none

theorem Program.eq_of_same? {a b : Program} (same : (a.same? b).isSome) : a = b :=
  ((a.same? b).get same).down

/-! ## The tree of the module -/

namespace Library

/-- The function `contains`. -/
def containsDecl : FunctionDecl :=
  .mk ⟨3, 1, 39⟩ "contains" ["xs", "x"]
    [.forIn ⟨4, 5, 65⟩ (.ident ⟨4, 17, 77⟩ "xs") ⟨⟨4, 9, 69⟩, "i"⟩ ⟨⟨4, 12, 72⟩, "e"⟩
      [.conditional ⟨5, 9, 90⟩
        [(.binary ⟨5, 14, 95⟩ .equal (.ident ⟨5, 12, 93⟩ "e") (.ident ⟨5, 17, 98⟩ "x"),
          [.returnValue ⟨6, 13, 114⟩ (some (.literal ⟨6, 20, 121⟩ (.bool true)))])] none],
     .returnValue ⟨9, 5, 146⟩ (some (.literal ⟨9, 12, 153⟩ (.bool false)))]

/-- The function `index_of`. -/
def indexOfDecl : FunctionDecl :=
  .mk ⟨12, 1, 162⟩ "index_of" ["xs", "x"]
    [.forIn ⟨13, 5, 188⟩ (.ident ⟨13, 17, 200⟩ "xs") ⟨⟨13, 9, 192⟩, "i"⟩ ⟨⟨13, 12, 195⟩, "e"⟩
      [.conditional ⟨14, 9, 213⟩
        [(.binary ⟨14, 14, 218⟩ .equal (.ident ⟨14, 12, 216⟩ "e") (.ident ⟨14, 17, 221⟩ "x"),
          [.returnValue ⟨15, 13, 237⟩ (some (.ident ⟨15, 20, 244⟩ "i"))])] none],
     .returnValue ⟨18, 5, 266⟩ (some (.unary ⟨18, 12, 273⟩ .minus (.literal ⟨18, 13, 274⟩ (.int 1))))]

/-- The function `reverse`. -/
def reverseDecl : FunctionDecl :=
  .mk ⟨21, 1, 279⟩ "reverse" ["xs"]
    [.assign ⟨22, 9, 305⟩ .plain [.ident ⟨22, 5, 301⟩ "out"] [.list ⟨22, 11, 307⟩ []],
     .assign ⟨23, 7, 316⟩ .plain [.ident ⟨23, 5, 314⟩ "n"]
      [.call ⟨23, 12, 321⟩ (.ident ⟨23, 9, 318⟩ "len") [.ident ⟨23, 13, 322⟩ "xs"]],
     .loop ⟨24, 5, 330⟩
      (.binary ⟨24, 11, 336⟩ .greater (.ident ⟨24, 9, 334⟩ "n") (.literal ⟨24, 13, 338⟩ (.int 0)))
      [.assign ⟨25, 11, 352⟩ (.compute .sub) [.ident ⟨25, 9, 350⟩ "n"] [.literal ⟨25, 14, 355⟩ (.int 1)],
       .assign ⟨26, 13, 369⟩ (.compute .add) [.ident ⟨26, 9, 365⟩ "out"]
        [.list ⟨26, 16, 372⟩ [.index ⟨26, 19, 375⟩ (.ident ⟨26, 17, 373⟩ "xs") (.ident ⟨26, 20, 376⟩ "n")]]],
     .returnValue ⟨28, 5, 390⟩ (some (.ident ⟨28, 12, 397⟩ "out"))]

/-- The function `sum`. -/
def sumDecl : FunctionDecl :=
  .mk ⟨31, 1, 404⟩ "sum" ["xs"]
    [.assign ⟨32, 11, 428⟩ .plain [.ident ⟨32, 5, 422⟩ "total"] [.literal ⟨32, 13, 430⟩ (.int 0)],
     .forIn ⟨33, 5, 436⟩ (.ident ⟨33, 17, 448⟩ "xs") ⟨⟨33, 9, 440⟩, "i"⟩ ⟨⟨33, 12, 443⟩, "e"⟩
      [.assign ⟨34, 15, 467⟩ (.compute .add) [.ident ⟨34, 9, 461⟩ "total"] [.ident ⟨34, 18, 470⟩ "e"]],
     .returnValue ⟨36, 5, 482⟩ (some (.ident ⟨36, 12, 489⟩ "total"))]

/-- The function `join`. -/
def joinDecl : FunctionDecl :=
  .mk ⟨39, 1, 498⟩ "join" ["xs", "sep"]
    [.assign ⟨40, 9, 526⟩ .plain [.ident ⟨40, 5, 522⟩ "out"] [.literal ⟨40, 11, 528⟩ (.str "")],
     .forIn ⟨41, 5, 535⟩ (.ident ⟨41, 17, 547⟩ "xs") ⟨⟨41, 9, 539⟩, "i"⟩ ⟨⟨41, 12, 542⟩, "e"⟩
      [.conditional ⟨42, 9, 560⟩
        [(.binary ⟨42, 14, 565⟩ .greater (.ident ⟨42, 12, 563⟩ "i") (.literal ⟨42, 16, 567⟩ (.int 0)),
          [.assign ⟨43, 17, 587⟩ (.compute .add) [.ident ⟨43, 13, 583⟩ "out"] [.ident ⟨43, 20, 590⟩ "sep"]])]
        none,
       .assign ⟨45, 13, 616⟩ (.compute .add) [.ident ⟨45, 9, 612⟩ "out"]
        [.call ⟨45, 19, 622⟩ (.ident ⟨45, 16, 619⟩ "str") [.ident ⟨45, 20, 623⟩ "e"]]],
     .returnValue ⟨47, 5, 636⟩ (some (.ident ⟨47, 12, 643⟩ "out"))]

/-- The functions of the module, in order. -/
def seqDecls : List FunctionDecl := [containsDecl, indexOfDecl, reverseDecl, sumDecl, joinDecl]

/-- The tree of the module. -/
def seqProgram : Program :=
  ⟨.comment ⟨1, 1, 0⟩ " seq: helpers over lists and strings" :: seqDecls.map .function,
    .complete ⟨49, 1, 649⟩⟩

/-- The characters of the module, line by line. -/
theorem toList_seq : seq.toList = seqLines.flatMap fun line => line.toList ++ ['\n'] := by
  simp only [seq, String.toList_join, List.flatMap_map, String.toList_append]
  rfl

/-- The text of the module is read as its tree. -/
theorem seq_program : Program.ofText seq = seqProgram := by
  have chars : ∀ cs : List Char, Reader.ofText seq = ⟨cs, .start⟩ → Program.ofText seq =
      Program.ofTokens (Tokens.scan (cs.length + 1) ⟨cs, .start⟩) := by
    intro cs same
    rw [Program.ofText, Tokens.ofText, same]
  rw [chars _ (congrArg (Reader.mk · .start) toList_seq)]
  exact Program.eq_of_same? (by decide +kernel)

end Library

end Shiba
