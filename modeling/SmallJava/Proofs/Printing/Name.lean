import SmallJava.Proofs.Grammar.Stmt
import SmallJava.Proofs.Printing.Text
import SmallJava.Proofs.Tree.Unlocated

/-!
# Printing names and types

The printed text of a name or a type is made of the tokens that it was derived from, and tokens that are spelled like
them are derived to the same name or type, wherever they stand.
-/

namespace SmallJava

/-! ## Tokens spelled alike -/

namespace Lexeme

variable {x y : Lexeme}

theorem token_eq (h : y.spelled = x.spelled) : y.token = x.token := congrArg Prod.fst h

theorem text_eq (h : y.spelled = x.spelled) : y.text = x.text := congrArg Prod.snd h

theorem token_of_spelled {t : Token} (h : y.spelled = t.spelled) : y.token = t := congrArg Prod.fst h

@[simp] theorem ident_unlocated (h : y.spelled = x.spelled) : y.ident.unlocated = x.ident.unlocated := by
  simp [Ident.unlocated, ident, text_eq h]

/-- Literals that are spelled alike differ in their locations only. -/
theorem literal_unlocated (h : y.spelled = x.spelled) : y.literal.unlocated = x.literal.unlocated := by
  simp [Literal.unlocated, literal, text_eq h, token_eq h]

end Lexeme

/-- A name starts with a letter. -/
theorem IsToken.head_of_ident {w : Bytes} (h : IsToken .ident w) : ∃ b r, w = b :: r ∧ isLetter b = true := by
  generalize ht : Token.ident = t at h
  cases h with
  | word hb _ => exact ⟨_, _, rfl, hb⟩
  | operator hop => simp [← ht, Token.isOperator] at hop
  | _ => cases ht

namespace Prints

variable {a : Bytes} {A : List Spelled} {x : Lexeme}

/-- A name. -/
theorem ident (h : Prints Any a A) (hx : x.Faithful) (hi : x.token = .ident) :
    Prints Clear (a ++ x.text) (A ++ [x.spelled]) :=
  (hx.prints (by rw [hi]; rfl)).before h

/-- A dot and a name. -/
theorem dotted (h : Prints Clear a A) (hx : x.Faithful) (hi : x.token = .ident) :
    Prints Clear (a ++ utf8 "." ++ x.text) (A ++ [Token.dot.spelled, x.spelled]) := by
  have hname : Prints Clear x.text [x.spelled] := hx.prints (by rw [hi]; rfl)
  have hdot : Prints Any (utf8 ".") [Token.dot.spelled] :=
    .token (fun k _ => ⟨_, _, rfl, rfl⟩) rfl (Utf8.isEncoding_utf8 _)
  have htoken : IsToken .ident x.text := hi ▸ hx.isToken (by simp [hi])
  obtain ⟨b, r, htext, hb⟩ := htoken.head_of_ident
  rw [List.append_assoc]
  refine h.append (hname.before hdot) fun k _ => ?_
  rw [htext]
  exact clear_dot hb _

/-- Empty pairs of brackets. -/
theorem brackets {zs : List Lexeme} {n : Nat} (h : Prints Clear a A) (hz : Grammar.Brackets zs n)
    (hf : ∀ z ∈ zs, z.Faithful) : Prints Clear (a ++ Bytes.copies n (utf8 "[]")) (A ++ zs.map Lexeme.spelled) := by
  induction hz generalizing a A with
  | none => simpa [Bytes.copies] using h
  | @pair l r zs n hl hr _ ih =>
    simp only [List.forall_mem_cons] at hf
    obtain ⟨hfl, hfr, hf⟩ := hf
    have hpair := ((h.mark (t := .lSquare) rfl).clear.mark (t := .rSquare) rfl).clear
    rw [List.map_cons, List.map_cons, hfl.spelled_eq hl (.inr rfl), hfr.spelled_eq hr (.inr rfl)]
    have htext : utf8 "[]" = utf8 "[" ++ utf8 "]" := rfl
    simpa [Bytes.copies, List.replicate_succ, htext, Token.spelling] using ih hpair hf

end Prints

namespace Grammar

variable {xs ys : List Lexeme} {t : TypeName}

/-- A dotted name is printed without blanks, and each of its names is cut off at the dot. -/
theorem QualName.prints (h : QualName xs t) (hf : ∀ x ∈ xs, x.Faithful) :
    Prints Clear t.name (xs.map Lexeme.spelled) := by
  induction h with
  | single hx => exact (hf _ (by simp)).prints (by rw [hx]; rfl)
  | @dotted xs t d x _ hd hx ih =>
    have hdot := (hf d (by simp)).spelled_eq hd (.inr rfl)
    have hname := (ih fun y hy => hf y (by simp [hy])).dotted (hf x (by simp)) hx
    simpa [hdot] using hname

/-- A type is printed as its name and its brackets. -/
theorem TypeRef.prints (h : TypeRef xs t) (hf : ∀ x ∈ xs, x.Faithful) :
    Prints Clear t.text (xs.map Lexeme.spelled) := by
  cases h with
  | @mk xs ys t n hq hb =>
    have hname := hq.prints fun x hx => hf x (by simp [hx])
    have htype := hname.brackets hb fun y hy => hf y (by simp [hy])
    simpa [TypeName.text] using htype

/-- Tokens spelled like a dotted name are the same dotted name. -/
theorem QualName.respell (h : QualName xs t) (hs : ys.map Lexeme.spelled = xs.map Lexeme.spelled) :
    ∃ u, QualName ys u ∧ u.unlocated = t.unlocated := by
  induction h generalizing ys with
  | single hx =>
    obtain ⟨y, rfl, hy⟩ := List.map_eq_singleton_iff.1 hs
    refine ⟨_, .single ((Lexeme.token_eq hy).trans hx), ?_⟩
    simp [TypeName.unlocated, Lexeme.text_eq hy]
  | @dotted xs t d x hq hd hx ih =>
    rw [List.map_append] at hs
    obtain ⟨ys, zs, rfl, hys, hzs⟩ := List.map_eq_append_iff.1 hs
    obtain ⟨e, zs, rfl, he, hzs⟩ := List.map_eq_cons_iff.1 hzs
    obtain ⟨y, rfl, hy⟩ := List.map_eq_singleton_iff.1 hzs
    obtain ⟨u, hu, hut⟩ := ih hys
    have hname : u.name = t.name := TypeName.name_eq hut
    refine ⟨_, .dotted hu ((Lexeme.token_eq he).trans hd) ((Lexeme.token_eq hy).trans hx), ?_⟩
    simp [TypeName.unlocated, Lexeme.text_eq hy, hname]

/-- Tokens spelled like pairs of brackets are as many pairs. -/
theorem Brackets.respell {n : Nat} (h : Brackets xs n) (hs : ys.map Lexeme.spelled = xs.map Lexeme.spelled) :
    Brackets ys n := by
  induction h generalizing ys with
  | none =>
    rw [List.map_nil, List.map_eq_nil_iff] at hs
    exact hs ▸ .none
  | pair hl hr _ ih =>
    obtain ⟨l, ys, rfl, hl', hs⟩ := List.map_eq_cons_iff.1 hs
    obtain ⟨r, ys, rfl, hr', hs⟩ := List.map_eq_cons_iff.1 hs
    exact .pair ((Lexeme.token_eq hl').trans hl) ((Lexeme.token_eq hr').trans hr) (ih hs)

/-- Tokens spelled like a type are the same type. -/
theorem TypeRef.respell (h : TypeRef xs t) (hs : ys.map Lexeme.spelled = xs.map Lexeme.spelled) :
    ∃ u, TypeRef ys u ∧ u.unlocated = t.unlocated := by
  cases h with
  | mk hq hb =>
    rw [List.map_append] at hs
    obtain ⟨ys, zs, rfl, hys, hzs⟩ := List.map_eq_append_iff.1 hs
    obtain ⟨u, hu, hut⟩ := hq.respell hys
    refine ⟨_, .mk hu (hb.respell hzs), ?_⟩
    simpa [TypeName.unlocated] using TypeName.name_eq hut

end Grammar

end SmallJava
