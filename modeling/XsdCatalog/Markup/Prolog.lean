import XsdCatalog.Markup.Reference

/-!
# Prologs

What stands before the root element: a byte order mark, an XML declaration, comments, instructions
and a document type. Of a document type only the entities with a text of their own are kept.
-/

namespace XsdCatalog.Markup

namespace Cursor

/-- One attribute of the XML declaration, whose name begins with `word`. -/
def declarationPart? (c : Cursor) (word : String) : Option Cursor :=
  if c.startsWith word.toList then c.attribute?.map (·.2) else none

/-- The spaces that stand before another part of the XML declaration, or its end. -/
def declarationGap? (c : Cursor) : Option Cursor :=
  if c.rest.head?.any isSpace then some c.skipSpaces
  else if c.startsWith "?>".toList then some c else none

/-- The XML declaration: a version, perhaps an encoding, perhaps whether it stands alone. -/
def declaration? (c : Cursor) : Option Cursor := do
  let c ← c.eat? "<?xml".toList
  let c ← c.declarationGap?
  let c ← c.declarationPart? "version"
  let c ← c.declarationGap?
  let c ← if c.startsWith "encoding".toList then do
      (← c.declarationPart? "encoding").declarationGap?
    else some c
  let c ← if c.startsWith "standalone".toList then c.declarationPart? "standalone" else some c
  c.skipSpaces.eat? "?>".toList

/-- The comment or the instruction that stands here. -/
def misc? (c : Cursor) : Option Cursor :=
  if c.startsWith "<!--".toList then c.comment?.map (·.2)
  else if c.startsWith "<?".toList then c.instruction?.map (·.2)
  else none

private theorem misc?_length {c d : Cursor} (h : c.misc? = some d) : d.length < c.length := by
  unfold misc? at h
  split at h
  · obtain ⟨⟨t, e⟩, ht, rfl⟩ := Option.map_eq_some_iff.1 h
    exact comment?_length ht
  · split at h
    · obtain ⟨⟨t, e⟩, ht, rfl⟩ := Option.map_eq_some_iff.1 h
      exact instruction?_length ht
    · cases h

/-- A comment or an instruction begins here. -/
def atMisc (c : Cursor) : Bool :=
  c.startsWith "<!--".toList || c.startsWith "<?".toList

/-- The cursor behind spaces, comments and instructions. -/
def skipMisc? (c : Cursor) : Option Cursor :=
  if c.skipSpaces.atMisc then
    match _h : c.skipSpaces.misc? with
    | some d => skipMisc? d
    | none => none
  else some c.skipSpaces
termination_by c.length
decreasing_by
  have := misc?_length _h
  have := skipSpaces_length c
  omega

/-- A literal in quotes, in which everything else may stand, as a cursor over its text. -/
def literal? (c : Cursor) : Option (Cursor × Cursor) :=
  match c.rest with
  | q :: rest =>
    if q = '"' ∨ q = '\'' then
      let inner := c.behind [q] rest
      let (value, d) := inner.takeWhile (· != q)
      (d.eat? [q]).map (⟨value, inner.position⟩, ·)
    else none
  | [] => none

/-- An external identifier begins here. -/
def atExternal (c : Cursor) : Bool :=
  c.startsWith "SYSTEM".toList || c.startsWith "PUBLIC".toList

/-- The cursor behind an external identifier: one literal, or two if it is public. -/
def external? (c : Cursor) : Option Cursor :=
  if c.startsWith "SYSTEM".toList then do
    let c ← (← c.eat? "SYSTEM".toList).spaces?
    return (← c.literal?).2
  else do
    let c ← (← c.eat? "PUBLIC".toList).spaces?
    let c ← (← c.literal?).2.spaces?
    return (← c.literal?).2

/-- The definition of an entity: its text, or nothing for an external one. Behind the external
identifier of a general entity a notation may stand. -/
def definition? (c : Cursor) (general : Bool) : Option (Option Cursor × Cursor) :=
  if c.atExternal then do
    let c ← c.external?
    let d := c.skipSpaces
    if general && d.startsWith "NDATA".toList then do
      let d ← (← d.eat? "NDATA".toList).spaces?
      return (none, (← d.name?).2)
    else return (none, c)
  else c.literal?.map fun (value, c) => (some value, c)

/-- Whether a general entity is declared here, and the cursor at its name. -/
def general? (c : Cursor) : Option (Bool × Cursor) :=
  match c.eat? ['%'] with
  | some d => d.spaces?.map (false, ·)
  | none => some (true, c)

/-- The declaration of an entity at `<!ENTITY`. External entities give nothing. A parameter entity
is no different from a general one of its name. -/
def entity? (c : Cursor) : Option (Option Entity × Cursor) := do
  let c ← c.eat? "<!ENTITY".toList
  let c ← c.spaces?
  let (general, c) ← c.general?
  let (name, c) ← c.name?
  let c ← c.spaces?
  let (value, c) ← c.definition? general
  let c ← c.skipSpaces.eat? ['>']
  return (value.map (⟨name, ·⟩), c)

/-- Another declaration, up to the first `>`. -/
def otherDeclaration? (c : Cursor) : Option Cursor :=
  if c.startsWith "<!ELEMENT".toList || c.startsWith "<!ATTLIST".toList
      || c.startsWith "<!NOTATION".toList then
    (c.before? ['>']).map (·.2)
  else none

private theorem literal?_length {c d value : Cursor} (h : c.literal? = some (value, d)) :
    d.length < c.length := by
  unfold literal? at h
  split at h
  · next q rest hr =>
    split at h
    · simp only at h
      obtain ⟨e, he, heq⟩ := Option.map_eq_some_iff.1 h
      cases heq
      have h1 := eat?_length he
      have h2 := (c.behind [q] rest).takeWhile_length (· != q)
      have h3 : (c.behind [q] rest).length + 1 = c.length := by simp [length, behind, hr]
      simp only [List.length_cons, List.length_nil] at h1
      omega
    · cases h
  · cases h

private theorem external?_length {c d : Cursor} (h : c.external? = some d) :
    d.length ≤ c.length := by
  unfold external? at h
  split at h
  · obtain ⟨c1, h1, h⟩ := Option.bind_eq_some_iff.1 h
    obtain ⟨c2, h2, h⟩ := Option.bind_eq_some_iff.1 h
    obtain ⟨⟨v, c3⟩, h3, h⟩ := Option.bind_eq_some_iff.1 h
    cases h
    have := eat?_length h1
    have := spaces?_length h2
    have := literal?_length h3
    simp only at *
    omega
  · obtain ⟨c1, h1, h⟩ := Option.bind_eq_some_iff.1 h
    obtain ⟨c2, h2, h⟩ := Option.bind_eq_some_iff.1 h
    obtain ⟨⟨v, c3⟩, h3, h⟩ := Option.bind_eq_some_iff.1 h
    obtain ⟨c4, h4, h⟩ := Option.bind_eq_some_iff.1 h
    obtain ⟨⟨w, c5⟩, h5, h⟩ := Option.bind_eq_some_iff.1 h
    cases h
    have := eat?_length h1
    have := spaces?_length h2
    have := literal?_length h3
    have := spaces?_length h4
    have := literal?_length h5
    simp only at *
    omega

private theorem definition?_length {c d : Cursor} {general : Bool} {value : Option Cursor}
    (h : c.definition? general = some (value, d)) : d.length ≤ c.length := by
  unfold definition? at h
  split at h
  · obtain ⟨c1, h1, h⟩ := Option.bind_eq_some_iff.1 h
    have := external?_length h1
    have := skipSpaces_length c1
    simp only at h
    split at h
    · obtain ⟨c2, h2, h⟩ := Option.bind_eq_some_iff.1 h
      obtain ⟨c3, h3, h⟩ := Option.bind_eq_some_iff.1 h
      obtain ⟨⟨n, c4⟩, h4, h⟩ := Option.bind_eq_some_iff.1 h
      cases h
      have := eat?_length h2
      have := spaces?_length h3
      have := name?_length h4
      simp only at *
      omega
    · cases h
      omega
  · obtain ⟨⟨v, c1⟩, h1, heq⟩ := Option.map_eq_some_iff.1 h
    cases heq
    exact Nat.le_of_lt (literal?_length h1)

private theorem general?_length {c d : Cursor} {general : Bool}
    (h : c.general? = some (general, d)) : d.length ≤ c.length := by
  unfold general? at h
  split at h
  · next e he =>
    obtain ⟨f, hf, heq⟩ := Option.map_eq_some_iff.1 h
    cases heq
    have := eat?_length he
    have := spaces?_length hf
    omega
  · cases h
    exact Nat.le_refl _

private theorem entity?_length {c d : Cursor} {e : Option Entity} (h : c.entity? = some (e, d)) :
    d.length < c.length := by
  obtain ⟨c1, h1, h⟩ := Option.bind_eq_some_iff.1 h
  obtain ⟨c2, h2, h⟩ := Option.bind_eq_some_iff.1 h
  obtain ⟨⟨g, c3⟩, h3, h⟩ := Option.bind_eq_some_iff.1 h
  obtain ⟨⟨n, c4⟩, h4, h⟩ := Option.bind_eq_some_iff.1 h
  obtain ⟨c5, h5, h⟩ := Option.bind_eq_some_iff.1 h
  obtain ⟨⟨v, c6⟩, h6, h⟩ := Option.bind_eq_some_iff.1 h
  obtain ⟨c7, h7, h⟩ := Option.bind_eq_some_iff.1 h
  cases h
  have hl : "<!ENTITY".toList.length = 8 := by decide
  have := eat?_length h1
  have := spaces?_length h2
  have := general?_length h3
  have := name?_length h4
  have := spaces?_length h5
  have := definition?_length h6
  have := eat?_length h7
  have := skipSpaces_length c6
  simp only at *
  omega

private theorem otherDeclaration?_length {c d : Cursor} (h : c.otherDeclaration? = some d) :
    d.length < c.length := by
  unfold otherDeclaration? at h
  split at h
  · obtain ⟨⟨t, e⟩, ht, rfl⟩ := Option.map_eq_some_iff.1 h
    have := before?_length ht
    simp only [List.length_cons, List.length_nil] at *
    omega
  · cases h

/-- The declarations of a document type up to its end, and the cursor behind it. `done` are the
entities declared so far, last one first. -/
def declarationsFrom (done : List Entity) (c : Cursor) : Option (List Entity × Cursor) :=
  match c.skipSpaces.eat? [']'] with
  | some d => (d.skipSpaces.eat? ['>']).map (done.reverse, ·)
  | none =>
    if c.skipSpaces.startsWith "<!ENTITY".toList then
      match _h : c.skipSpaces.entity? with
      | some (e, d) => declarationsFrom (e.toList ++ done) d
      | none => none
    else if c.skipSpaces.atMisc then
      match _h : c.skipSpaces.misc? with
      | some d => declarationsFrom done d
      | none => none
    else
      match _h : c.skipSpaces.otherDeclaration? with
      | some d => declarationsFrom done d
      | none => none
termination_by c.length
decreasing_by
  all_goals
    have := skipSpaces_length c
    first
      | have := entity?_length _h
        omega
      | have := misc?_length _h
        omega
      | have := otherDeclaration?_length _h
        omega

/-- The document type at `<!DOCTYPE`: the entities it declares, and the cursor behind it. -/
def doctype? (c : Cursor) : Option (List Entity × Cursor) := do
  let c ← (← c.eat? "<!DOCTYPE".toList).spaces?
  let c := (← c.name?).2.skipSpaces
  let c ← if c.atExternal then c.external? else some c
  let c := c.skipSpaces
  match c.eat? ['>'] with
  | some d => return ([], d)
  | none => declarationsFrom [] (← c.eat? ['['])

/-- The entities that a prolog declares, and the cursor behind the prolog. -/
def prolog? (c : Cursor) : Option (List Entity × Cursor) := do
  let c := (c.eat? ['\ufeff']).getD c
  let c ← if c.startsWith "<?xml ".toList then c.declaration? else some c
  let c ← c.skipMisc?
  if c.startsWith "<!DOCTYPE".toList then do
    let (entities, c) ← c.doctype?
    return (entities, ← c.skipMisc?)
  else some ([], c)

end Cursor

end XsdCatalog.Markup
