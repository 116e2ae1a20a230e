import Mathlib.Data.List.Chain
import XsdCatalog.Proofs.Lexeme

/-!
# The structure of content

Start and end tags nest. Content is a row of marks and elements, given by what stands first in it
and by what follows. Tokens that close what they open are the lexemes of such content, and its
lexemes are read as its tokens.
-/

namespace XsdCatalog.Markup

/-- A row of marks and elements. -/
inductive Content
  | nil
  | mark (m : Mark) (rest : Content)
  | empty (tag : StartTag) (rest : Content)
  | element (tag : StartTag) (inner : Content) (name : SpelledName) (gap : Spaces) (rest : Content)

def Content.lexemes : Content → List Lexeme
  | nil => []
  | mark m rest => .mark m :: rest.lexemes
  | empty tag rest => .empty tag :: rest.lexemes
  | element tag inner name gap rest =>
    .start tag :: (inner.lexemes ++ .stop name gap :: rest.lexemes)

namespace Lexeme

/-- The characters of lexemes. -/
def spell (ls : List Lexeme) : List Char :=
  ls.flatMap (·.chars)

/-- The tokens of lexemes. -/
def tokens (position : Position) : List Lexeme → List Token
  | [] => []
  | l :: ls => l.token position :: tokens (position.after l.chars) ls

/-- No text stands next to another one. -/
def Apart (ls : List Lexeme) : Prop :=
  ls.IsChain fun l k => l.isText = true → k.isText = false

theorem spell_nil : spell [] = [] := rfl

theorem spell_cons (l : Lexeme) (ls : List Lexeme) : spell (l :: ls) = l.chars ++ spell ls := rfl

theorem spell_append (ls ks : List Lexeme) : spell (ls ++ ks) = spell ls ++ spell ks :=
  List.flatMap_append

theorem tokens_append (position : Position) (ls ks : List Lexeme) :
    tokens position (ls ++ ks)
      = tokens position ls ++ tokens (position.after (spell ls)) ks := by
  induction ls generalizing position with
  | nil => rfl
  | cons l ls ih =>
    rw [List.cons_append, tokens, ih, tokens, spell_cons, Position.after_append, List.cons_append]

/-- Only a text begins with something else than `<`. -/
theorem ends_chars_iff (l : Lexeme) (rest : List Char) :
    Text.Ends (· != '<') (l.chars ++ rest) ↔ l.isText = false := by
  cases l with
  | mark m =>
    cases m with
    | text cs =>
      obtain ⟨x, tail, hx⟩ := List.exists_cons_of_ne_nil cs.2.1
      have hopen : x ≠ '<' := fun he => cs.2.2.1 (by rw [hx, he]; exact List.mem_cons_self)
      have hchars : (mark (.text cs)).chars ++ rest = x :: (tail ++ rest) := congrArg (· ++ rest) hx
      rw [hchars]
      exact iff_of_false (by simp [Text.Ends, hopen]) (by simp [isText, Mark.isText])
    | _ => exact iff_of_true rfl rfl
  | _ => exact iff_of_true rfl rfl

theorem fits_of_apart {l : Lexeme} {ls : List Lexeme} {rest : List Char} (h : Apart (l :: ls))
    (hr : ∀ k ∈ (l :: ls).getLast?, k.Fits rest) : l.Fits (spell ls ++ rest) := by
  intro hl
  cases ls with
  | nil => exact hr l rfl hl
  | cons k ls =>
    rw [spell_cons, List.append_assoc, ends_chars_iff]
    exact (List.isChain_cons_cons.1 h).1 hl

theorem apart_cons {l : Lexeme} {ls : List Lexeme} {rest : List Char}
    (hl : l.Fits (spell ls ++ rest)) (h : Apart ls) : Apart (l :: ls) := by
  cases ls with
  | nil => exact List.isChain_singleton l
  | cons k ls =>
    refine List.isChain_cons_cons.2 ⟨fun ht => ?_, h⟩
    have hk := hl ht
    rwa [spell_cons, List.append_assoc, ends_chars_iff] at hk

end Lexeme

namespace Cursor

open Lexeme (spell tokens Apart)

theorem contentFrom_cons {l : Lexeme} {rest : List Char} (h : l.Fits rest) (done : List Token)
    (depth : Nat) (position : Position) :
    contentFrom done depth ⟨l.chars ++ rest, position⟩
      = match (l.token position).depth? depth with
        | some depth => contentFrom (l.token position :: done) depth ⟨rest, position.after l.chars⟩
        | none => some ((l.token position :: done).reverse, ⟨rest, position.after l.chars⟩) := by
  have htoken := token?_append h position
  have hne : ¬ (l.chars ++ rest).isEmpty = true := by
    rw [List.isEmpty_iff, List.append_eq_nil_iff]
    exact fun he => l.chars_ne_nil he.1
  rw [contentFrom, if_neg hne]
  split
  · next t d ht =>
    rw [htoken] at ht
    obtain ⟨rfl, rfl⟩ := Prod.mk.inj (Option.some.inj ht)
    rfl
  · next ht =>
    rw [htoken] at ht
    cases ht

/-- Content opens and closes elements in the same measure. -/
theorem contentFrom_content (k : Content) {rest : List Char} (hapart : Apart k.lexemes)
    (hr : Text.Ends (· != '<') rest) (done : List Token) (depth : Nat) (position : Position) :
    contentFrom done depth ⟨spell k.lexemes ++ rest, position⟩
      = contentFrom ((tokens position k.lexemes).reverse ++ done) depth
          ⟨rest, position.after (spell k.lexemes)⟩ := by
  induction k generalizing rest done depth position with
  | nil => rfl
  | mark m k ih =>
    have hfits : (Lexeme.mark m).Fits (spell k.lexemes ++ rest) :=
      Lexeme.fits_of_apart hapart fun _ _ _ => hr
    have hdepth : m.token.depth? depth = some depth := by cases m <;> rfl
    rw [Content.lexemes, Lexeme.spell_cons, List.append_assoc, contentFrom_cons hfits,
      Position.after_append, tokens]
    simp only [Lexeme.token, hdepth]
    rw [ih hapart.tail hr]
    simp
  | empty tag k ih =>
    have hfits : (Lexeme.empty tag).Fits (spell k.lexemes ++ rest) := Lexeme.fits_of_not_text rfl _
    rw [Content.lexemes, Lexeme.spell_cons, List.append_assoc, contentFrom_cons hfits,
      Position.after_append, tokens]
    simp only [Lexeme.token, StartTag.token, StartTag.ending, Token.depth?]
    simp only [if_true]
    rw [ih hapart.tail hr]
    simp
  | element tag inner name gap k ihInner ihRest =>
    have hstart : (Lexeme.start tag).Fits
        (spell inner.lexemes ++ ((Lexeme.stop name gap).chars ++ (spell k.lexemes ++ rest))) :=
      Lexeme.fits_of_not_text rfl _
    have hstop : (Lexeme.stop name gap).Fits (spell k.lexemes ++ rest) :=
      Lexeme.fits_of_not_text rfl _
    have hinner : Apart inner.lexemes := hapart.tail.left_of_append
    have hbehind : Apart k.lexemes := hapart.tail.right_of_append.tail
    have hends : Text.Ends (· != '<')
        ((Lexeme.stop name gap).chars ++ (spell k.lexemes ++ rest)) := rfl
    have hchars : spell (Content.element tag inner name gap k).lexemes ++ rest
        = (Lexeme.start tag).chars ++ (spell inner.lexemes ++
          ((Lexeme.stop name gap).chars ++ (spell k.lexemes ++ rest))) := by
      simp only [Content.lexemes, Lexeme.spell_cons, Lexeme.spell_append, List.append_assoc]
    have hopened : ((Lexeme.start tag).token position).depth? depth = some (depth + 1) := rfl
    have hclosed : ((Lexeme.stop name gap).token (((position.after (Lexeme.start tag).chars).after
        (spell inner.lexemes)))).depth? (depth + 1) = some depth := rfl
    rw [hchars, contentFrom_cons hstart]
    simp only [hopened]
    rw [ihInner hinner hends, contentFrom_cons hstop]
    simp only [hclosed]
    rw [ihRest hbehind hr]
    simp [Content.lexemes, tokens, Lexeme.tokens_append, Lexeme.spell_cons, Lexeme.spell_append]

end Cursor

/-- The content of an open element and the end tag that closes it. -/
structure Level where
  content : Content
  name : SpelledName
  gap : Spaces

def Level.lexemes (l : Level) : List Lexeme :=
  l.content.lexemes ++ [.stop l.name l.gap]

/-- The number of open elements behind tokens. -/
def Token.depthFrom? : List Token → Nat → Option Nat
  | [], depth => some depth
  | t :: ts, depth => (t.depth? depth).bind (depthFrom? ts)

namespace Cursor

open Lexeme (spell tokens Apart)

/-- A lexeme that opens or closes no more than it may stands in front of levels as a part of them. -/
theorem exists_levels_cons {l : Lexeme} {position : Position} {depth n : Nat} {levels : List Level}
    (hdepth : (l.token position).depth? depth = some n) (hlength : levels.length = n + 1) :
    ∃ new : List Level, new.length = depth + 1 ∧
      new.flatMap (·.lexemes) = l :: levels.flatMap (·.lexemes) := by
  obtain ⟨level, levels, rfl⟩ := List.exists_cons_of_length_eq_add_one hlength
  have hn : levels.length = n := Nat.succ.inj hlength
  cases l with
  | start tag =>
    have hdepth : depth + 1 = n := Option.some.inj hdepth
    obtain ⟨outer, levels, rfl⟩ := List.exists_cons_of_length_eq_add_one (hn.trans hdepth.symm)
    refine ⟨⟨.element tag level.content level.name level.gap outer.content, outer.name,
      outer.gap⟩ :: levels, ?_, ?_⟩
    · exact hn.trans hdepth.symm
    · simp [Level.lexemes, Content.lexemes]
  | empty tag =>
    have hdepth : depth = n := Option.some.inj hdepth
    refine ⟨{ level with content := .empty tag level.content } :: levels, ?_, ?_⟩
    · exact congrArg Nat.succ (hn.trans hdepth.symm)
    · simp [Level.lexemes, Content.lexemes]
  | stop name gap =>
    refine ⟨⟨.nil, name, gap⟩ :: level :: levels, ?_, ?_⟩
    · cases depth with
      | zero => cases hdepth
      | succ depth =>
        have hdepth : depth = n := Option.some.inj hdepth
        simp [hn, hdepth]
    · simp [Level.lexemes, Content.lexemes]
  | mark m =>
    have hdepth : depth = n := by
      cases m <;> exact Option.some.inj hdepth
    refine ⟨{ level with content := .mark m level.content } :: levels, ?_, ?_⟩
    · exact congrArg Nat.succ (hn.trans hdepth.symm)
    · simp [Level.lexemes, Content.lexemes]

/-- Only an end tag closes more than is open, and only where nothing is open. -/
theorem eq_stop_of_depth?_eq_none {l : Lexeme} {position : Position} {depth : Nat}
    (h : (l.token position).depth? depth = none) : depth = 0 ∧ ∃ name gap, l = .stop name gap := by
  cases l with
  | stop name gap =>
    cases depth with
    | zero => exact ⟨rfl, name, gap, rfl⟩
    | succ depth => cases h
  | mark m => cases m <;> cases h
  | _ => cases h

/-- Behind tokens that were read up to an end tag too many, all open elements are closed, each with
its content. -/
theorem levels_of_contentFrom {done ts : List Token} {depth : Nat} {c d : Cursor}
    (h : contentFrom done depth c = some (ts, d)) :
    (∃ read n, ts = done.reverse ++ read ∧ Token.depthFrom? read depth = some n) ∨
      ∃ levels : List Level, levels.length = depth + 1 ∧
        ts = done.reverse ++ tokens c.position (levels.flatMap (·.lexemes)) ∧
        c.Passes (spell (levels.flatMap (·.lexemes))) d ∧ Apart (levels.flatMap (·.lexemes)) := by
  fun_induction contentFrom done depth c with
  | case1 done depth c hnil =>
    cases h
    exact .inl ⟨[], depth, by simp, rfl⟩
  | case2 done depth c hne t e ht n hdepth ih =>
    rcases ih h with ⟨read, m, rfl, hm⟩ | ⟨levels, hlength, rfl, hp, hapart⟩
    · refine .inl ⟨t :: read, m, by simp, ?_⟩
      rw [Token.depthFrom?, hdepth]
      exact hm
    · right
      rcases reads_of_token? ht with ⟨_, _, _, -, hnil⟩ | ⟨l, rfl, hl, hfits⟩
      · exfalso
        obtain ⟨level, levels, rfl⟩ := List.exists_cons_of_length_eq_add_one hlength
        have hspell := hp.1
        rw [hnil] at hspell
        simp [Level.lexemes, Lexeme.spell_append, Lexeme.spell_cons, Lexeme.chars] at hspell
      · obtain ⟨new, hnew, hlexemes⟩ := exists_levels_cons hdepth hlength
        refine ⟨new, hnew, ?_, ?_, ?_⟩
        · rw [hlexemes, tokens, ← hl.2]
          simp
        · rw [hlexemes]
          exact hl.trans hp
        · rw [hlexemes]
          exact Lexeme.apart_cons (hp.1 ▸ hfits) hapart
  | case3 done depth c hne t e ht hdepth =>
    cases h
    rcases reads_of_token? ht with ⟨_, _, _, rfl, -⟩ | ⟨l, rfl, hl, -⟩
    · cases hdepth
    · obtain ⟨rfl, name, gap, rfl⟩ := eq_stop_of_depth?_eq_none hdepth
      refine .inr ⟨[⟨.nil, name, gap⟩], rfl, ?_, ?_, List.isChain_singleton _⟩
      · simp [Level.lexemes, Content.lexemes, tokens]
      · simpa [Level.lexemes, Content.lexemes, spell] using hl
  | case4 => cases h

end Cursor

end XsdCatalog.Markup
