import XsdCatalog.Proofs.InheritedDeclarations
import XsdCatalog.Proofs.SamePieces

/-!
# Carriage returns in front of line feeds

A document whose lines end in a carriage return and a line feed has the fragments of the document
whose lines end in line feeds alone. No place of a tag is moved by a carriage return that ends a
line, tags declare the same keys, and the texts handed out are the same.
-/

namespace XsdCatalog.Fragment

variable {alone : Prop} {xs ys : Bytes}

namespace Declaration

/-- The declarations have one key, and values with the same lines. -/
structure Same (alone : Prop) (d e : Declaration) : Prop where
  key : d.key = e.key
  plain : OneLine d.key
  value : SameLines alone d.value e.value

/-- The attributes of a tag, one after the other. -/
theorem attributes_eq (seen : List Bytes) (bytes : Bytes) :
    attributes seen bytes =
      match bytes.dropWhile isSpace with
      | [] => []
      | first :: rest =>
        match (rest.dropWhile fun b => b != 0x3D && !isSpace b).dropWhile isSpace with
        | [] => []
        | b :: behind =>
          if b = 0x3D then
            if seen.contains (first :: rest.takeWhile fun b => b != 0x3D && !isSpace b) then
              attributes seen (behind.dropWhile (!isSpace ·))
            else
              match value? behind with
              | none => []
              | some (value, after) =>
                (value.map fun v =>
                  ⟨first :: rest.takeWhile fun b => b != 0x3D && !isSpace b, v⟩).toList ++
                attributes ((first :: rest.takeWhile fun b => b != 0x3D && !isSpace b) :: seen)
                  after
          else attributes seen (b :: behind) := by
  rw [attributes]
  split
  · next h => simp only [h]
  · next first rest h =>
    simp only [h]
    split
    · next hk => simp only [hk]
    · next b behind hk =>
      simp only [hk]
      split
      · split
        · rfl
        · split
          · next hv => simp only [hv]
          · next hv => simp only [hv]
      · rfl

/-- The values are both missing or have the same lines, and so has what follows them. -/
def SameValue (alone : Prop) (x y : Option Bytes × Bytes) : Prop :=
  Option.Rel (SameLines alone) x.1 y.1 ∧ SameLines alone x.2 y.2

private theorem value?_same (h : SameLines alone xs ys) :
    Option.Rel (SameValue alone) (value? xs) (value? ys) := by
  rw [value?, value?]
  cases hx : xs.dropWhile isSpace with
  | nil =>
    rw [h.dropWhile_nil rfl hx]
    exact .none
  | cons q rest =>
    obtain ⟨hq, rest', hy, hrest⟩ := h.dropWhile_cons rfl rfl hx
    rw [hy]
    simp only
    split
    · have hreturn : (0x0D != q) = true := bne_iff_ne.2 (Ne.symm (isVisible_iff.1 hq).1)
      have hfeed : (0x0A != q) = true := bne_iff_ne.2 (Ne.symm (isVisible_iff.1 hq).2)
      have hvalue := hrest.takeWhile (p := (· != q)) (hreturn.trans hfeed.symm)
      cases hafter : rest.dropWhile (· != q) with
      | nil =>
        rw [hrest.dropWhile_nil (hreturn.trans hfeed.symm) hafter]
        exact .none
      | cons _ after =>
        obtain ⟨-, after', hafter', hbehind⟩ := hrest.dropWhile_cons hreturn hfeed hafter
        rw [hafter']
        exact .some ⟨.some hvalue, hbehind⟩
    · exact .some ⟨.none, hrest.dropWhile (p := (!isSpace ·)) rfl⟩

/-- A key holds no line ends. -/
theorem oneLine_key {b : UInt8} (hb : isVisible b = true) (rest : Bytes) :
    OneLine (b :: rest.takeWhile fun b => b != 0x3D && !isSpace b) := by
  intro c hc
  rcases List.mem_cons.1 hc with rfl | hc
  · exact hb
  · have hkey := List.mem_takeWhile_imp (p := fun b => b != 0x3D && !isSpace b) hc
    rw [isVisible_iff]
    constructor <;> rintro rfl <;> cases hkey

/-- The next key and what follows it. -/
theorem exists_key_same (h : SameLines alone xs ys) {b c : UInt8} {rest behind : Bytes}
    (hx : xs.dropWhile isSpace = b :: rest)
    (hk : (rest.dropWhile fun b => b != 0x3D && !isSpace b).dropWhile isSpace = c :: behind) :
    ∃ rest' behind', ys.dropWhile isSpace = b :: rest' ∧
      (rest'.dropWhile fun b => b != 0x3D && !isSpace b).dropWhile isSpace = c :: behind' ∧
      (rest'.takeWhile fun b => b != 0x3D && !isSpace b)
        = (rest.takeWhile fun b => b != 0x3D && !isSpace b) ∧
      OneLine (b :: rest.takeWhile fun b => b != 0x3D && !isSpace b) ∧
      isVisible c = true ∧ SameLines alone behind behind' := by
  obtain ⟨hb, rest', hy, hrest⟩ := h.dropWhile_cons rfl rfl hx
  have hgap := hrest.dropWhile (p := fun b => b != 0x3D && !isSpace b) rfl
  obtain ⟨hc, behind', hk', hbehind⟩ := hgap.dropWhile_cons rfl rfl hk
  have hkey := hrest.takeWhile (p := fun b => b != 0x3D && !isSpace b) rfl
  have hplain : OneLine (rest'.takeWhile fun b => b != 0x3D && !isSpace b) := fun c hc =>
    oneLine_key hb rest' c (List.mem_cons_of_mem b hc)
  exact ⟨rest', behind', hy, hk', (hkey.eq_of_oneLine hplain).symm, oneLine_key hb rest, hc,
    hbehind⟩

private theorem attributes_same (seen : List Bytes) (h : SameLines alone xs ys) :
    List.Forall₂ (Same alone) (attributes seen xs) (attributes seen ys) := by
  fun_induction attributes seen xs generalizing ys with
  | case1 seen xs hx =>
    rw [attributes_eq seen ys, h.dropWhile_nil rfl hx]
    exact .nil
  | case2 seen xs b rest hx hk =>
    obtain ⟨-, rest', hy, hrest⟩ := h.dropWhile_cons rfl rfl hx
    have hgap := hrest.dropWhile (p := fun b => b != 0x3D && !isSpace b) rfl
    rw [attributes_eq seen ys]
    simp only [hy, hgap.dropWhile_nil rfl hk]
    exact .nil
  | case3 seen xs b rest hx key behind hseen hk =>
    rename_i ih
    obtain ⟨rest', behind', hy, hk', hkey, -, -, hbehind⟩ := exists_key_same h hx hk
    rw [attributes_eq seen ys]
    simp only [hy, hk', hkey, if_true]
    rw [if_pos hseen]
    exact ih (hbehind.dropWhile rfl)
  | case4 seen xs b rest hx key behind hseen hv =>
    rename_i hk
    obtain ⟨rest', behind', hy, hk', hkey, -, -, hbehind⟩ := exists_key_same h hx hk
    have hvalue := value?_same hbehind
    rw [attributes_eq seen ys]
    simp only [hy, hk', hkey, if_true]
    rw [if_neg hseen]
    rw [hv] at hvalue
    generalize value? behind' = x at hvalue ⊢
    cases hvalue
    exact .nil
  | case5 seen xs b rest hx key behind hseen value after hv hk =>
    rename_i ih
    obtain ⟨rest', behind', hy, hk', hkey, hplain, -, hbehind⟩ := exists_key_same h hx hk
    have hvalue := value?_same hbehind
    rw [attributes_eq seen ys]
    simp only [hy, hk', hkey, if_true]
    rw [if_neg hseen]
    rw [hv] at hvalue
    generalize value? behind' = x at hvalue ⊢
    cases hvalue with
    | @some _ y hvalue =>
      obtain ⟨value', after'⟩ := y
      obtain ⟨hvalue, hafter⟩ := hvalue
      cases hvalue with
      | none => exact ih hafter
      | some hvalue => exact .cons ⟨rfl, hplain, hvalue⟩ (ih hafter)
  | case6 seen xs b rest hx c behind hk hne =>
    rename_i ih
    obtain ⟨rest', behind', hy, hk', hkey, -, hc, hbehind⟩ := exists_key_same h hx hk
    rw [attributes_eq seen ys]
    simp only [hy, hk', hne, if_false]
    exact ih (.byte (isVisible_iff.1 hc).1 hbehind)

variable {ds es : List Declaration}

private theorem ofTag_same (h : SameLines alone xs ys) :
    List.Forall₂ (Same alone) (ofTag xs) (ofTag ys) := by
  refine List.rel_filter ?_ (attributes_same [] (h.dropWhile rfl))
  intro d e hde
  simp only [declares, hde.key]

private theorem keys_same (h : List.Forall₂ (Same alone) ds es) : keys ds = keys es := by
  induction h with
  | nil => rfl
  | cons hde _ ih => rw [keys, keys, List.map_cons, List.map_cons, hde.key]; exact congrArg _ ih

private theorem any_key_same (h : List.Forall₂ (Same alone) ds es) (key : Bytes) :
    ds.any (·.key == key) = es.any (·.key == key) := by
  rw [Bool.eq_iff_iff, any_key_iff, any_key_iff, keys_same h]

private theorem put_same {d e : Declaration} (h : List.Forall₂ (Same alone) ds es)
    (hde : Same alone d e) : List.Forall₂ (Same alone) (put ds d) (put es e) := by
  rw [put, put, hde.key, any_key_same h]
  split
  · refine List.rel_map ?_ h
    intro d' e' hde'
    simp only [hde'.key]
    split
    · exact hde
    · exact hde'
  · exact List.rel_append h (.cons hde .nil)

variable {scopes scopes' : List (List Declaration)}

private theorem inForce_same (h : List.Forall₂ (List.Forall₂ (Same alone)) scopes scopes') :
    List.Forall₂ (Same alone) (inForce scopes) (inForce scopes') :=
  List.rel_foldl (P := List.Forall₂ (Same alone)) (R := Same alone)
    (fun _ _ h _ _ hde => put_same h hde) .nil (List.rel_flatten h)

private theorem missing_same (hown : List.Forall₂ (Same alone) ds es)
    (h : List.Forall₂ (List.Forall₂ (Same alone)) scopes scopes') :
    List.Forall₂ (Same alone) (missing ds scopes) (missing es scopes') := by
  refine List.rel_filter ?_ (inForce_same h)
  intro d e hde
  have hempty : d.value.isEmpty = e.value.isEmpty := by
    rw [Bool.eq_iff_iff, List.isEmpty_iff, List.isEmpty_iff]
    exact hde.value.nil_iff
  simp only [hde.key, any_key_same hown, hempty]

private theorem written_same {d e : Declaration} (h : Same alone d e) :
    SameLines alone (written d) (written e) := by
  rw [written, written, ← h.key]
  exact (((SameLines.of_oneLine alone h.plain).append (.of_oneLine alone (by decide))).append
    h.value).append (.of_oneLine alone (by decide)) |>.byte (by decide)

private theorem withInherited_same (hbody : SameLines alone xs ys)
    (h : List.Forall₂ (List.Forall₂ (Same alone)) scopes scopes') :
    SameLines alone (withInherited scopes xs) (withInherited scopes' ys) :=
  hbody.append (.flatMap (missing_same (ofTag_same hbody) h) fun _ _ => written_same)

end Declaration

/-- Carriage returns that end lines move no place. -/
theorem foldl_step_same (h : SameLines False xs ys) (t : Tracker) :
    xs.foldl Tracker.step t = ys.foldl Tracker.step t := by
  induction h generalizing t with
  | nil => rfl
  | byte _ _ ih => exact ih _
  | pair _ ih => exact ih _
  | lone ends _ _ => cases ends

/-- Pieces with the same lines, at one place. -/
structure SameEvent (e f : Event) : Prop where
  piece : SamePiece False e.piece f.piece
  place : e.place = f.place

private theorem names?_same {p q : Piece} (h : SamePiece alone p q) {names : List Bytes}
    (hnames : ∀ name ∈ names, OneLine name) : p.names? names = q.names? names := by
  cases h with
  | start body => rw [Piece.names?, Piece.names?, body.tagName_eq]
  | stop body =>
    cases names with
    | nil => rfl
    | cons name outer =>
      simp only [Piece.names?, body.stopName_eq_iff (hnames name List.mem_cons_self)]
  | _ => rfl

private theorem oneLine_names {p : Piece} {names names' : List Bytes}
    (h : p.names? names = some names')
    (hnames : ∀ name ∈ names, OneLine name) : ∀ name ∈ names', OneLine name := by
  cases p with
  | start body =>
    cases h
    exact List.forall_mem_cons.2 ⟨SameLines.oneLine_tagName body, hnames⟩
  | stop body =>
    cases names with
    | nil => cases h
    | cons name outer =>
      obtain ⟨-, h⟩ := Option.ite_none_right_eq_some.1 h
      cases h
      exact (List.forall_mem_cons.1 hnames).2
  | _ =>
    cases h
    exact hnames

private theorem events_of_none {p : Piece} {names : List Bytes} (h : p.names? names = none)
    (t : Tracker) (ending : Ending) (rest : List Piece) :
    events t names ending (p :: rest) = ([], .malformed) := by
  cases p with
  | stop body =>
    cases names with
    | nil => rfl
    | cons name outer => exact if_neg fun hname => by simp [Piece.names?, hname] at h
  | _ => cases h

private theorem events_same {ps qs : List Piece} (h : List.Forall₂ (SamePiece False) ps qs)
    {t : Tracker}
    (ht : t.atStart = false) {names : List Bytes} (hnames : ∀ name ∈ names, OneLine name)
    (ending : Ending) :
    List.Forall₂ SameEvent (events t names ending ps).1 (events t names ending qs).1 ∧
      (events t names ending ps).2 = (events t names ending qs).2 := by
  induction h generalizing t names with
  | nil => exact ⟨.nil, rfl⟩
  | @cons p q ps qs hpq _ ih =>
    have hnames' := names?_same hpq hnames
    have hconsume : t.consume p.source = t.consume q.source := by
      rw [Tracker.consume_of_started ht, Tracker.consume_of_started ht]
      exact foldl_step_same hpq.source t
    cases hp : p.names? names with
    | none =>
      rw [events_of_none hp, events_of_none (hnames' ▸ hp)]
      exact ⟨.nil, rfl⟩
    | some names' =>
      rw [events_cons hp, events_cons (hnames' ▸ hp), ← hconsume]
      obtain ⟨hevents, hending⟩ :=
        ih (Tracker.atStart_consume ht p.source) (oneLine_names hp hnames)
      exact ⟨.cons ⟨hpq, rfl⟩ hevents, hending⟩

private theorem unmarked_same (h : SameLines alone xs ys) :
    SameLines alone (unmarked xs) (unmarked ys) := by
  have hmark : OneLine Tracker.byteOrderMark := by decide
  rw [unmarked, unmarked, ← h.isPrefixOf_eq hmark]
  split
  · next hp => exact h.drop_length hmark (List.isPrefixOf_iff_prefix.1 hp)
  · exact h

private theorem eventsOf_same (h : SameLines False xs ys) :
    List.Forall₂ SameEvent (eventsOf xs).1 (eventsOf ys).1 ∧ (eventsOf xs).2 = (eventsOf ys).2 := by
  obtain ⟨hpieces, hwhole⟩ := (unmarked_same h).scan
  rw [eventsOf_eq, eventsOf_eq, hwhole]
  exact events_same hpieces rfl (List.forall_mem_nil _) _

private theorem subtree?_same {es fs : List Event} (h : List.Forall₂ SameEvent es fs)
    (depth : Nat) :
    Option.Rel (List.Forall₂ (SamePiece False)) (subtree? depth es) (subtree? depth fs) := by
  have hmap {p q : Piece} {x y : Option (List Piece)} (hpq : SamePiece False p q)
      (hxy : Option.Rel (List.Forall₂ (SamePiece False)) x y) :
      Option.Rel (List.Forall₂ (SamePiece False)) (x.map (p :: ·)) (y.map (q :: ·)) := by
    cases hxy with
    | none => exact .none
    | some hps => exact .some (.cons hpq hps)
  induction h generalizing depth with
  | nil => exact .none
  | @cons e f es fs hef _ ih =>
    obtain ⟨p, place⟩ := e
    obtain ⟨q, place'⟩ := f
    have hpq : SamePiece False p q := hef.piece
    cases id hpq with
    | start body => exact hmap hpq (ih (depth + 1))
    | stop body =>
      rw [subtree?, subtree?]
      split
      · exact .some (.cons hpq .nil)
      · exact hmap hpq (ih (depth - 1))
    | _ => exact hmap hpq (ih depth)

/-- The same is found, up to line ends in the pieces. -/
inductive SameFound : Found → Found → Prop
  | pieces {ps qs : List Piece} (same : List.Forall₂ (SamePiece False) ps qs) :
    SameFound (.pieces ps) (.pieces qs)
  | unclosed : SameFound .unclosed .unclosed
  | nothing : SameFound .nothing .nothing

private theorem seek_same {es fs : List Event} (h : List.Forall₂ SameEvent es fs)
    (target : Position) {scopes scopes' : List (List Declaration)}
    (hscopes : List.Forall₂ (List.Forall₂ (Declaration.Same False)) scopes scopes') :
    SameFound (seek target scopes es) (seek target scopes' fs) := by
  induction h generalizing scopes scopes' with
  | nil => exact .nothing
  | @cons e f es fs hef hrest ih =>
    obtain ⟨p, place⟩ := e
    obtain ⟨q, place'⟩ := f
    obtain rfl : place = place' := hef.place
    have hpq : SamePiece False p q := hef.piece
    cases hpq with
    | start body =>
      rw [seek, seek]
      split
      · have hsubtree := subtree?_same hrest 1
        generalize subtree? 1 es = x at hsubtree ⊢
        generalize subtree? 1 fs = y at hsubtree ⊢
        cases hsubtree with
        | none => exact .unclosed
        | some hps =>
          have hbody := Declaration.withInherited_same body (List.rel_reverse hscopes)
          exact .pieces (.cons (.start hbody) hps)
      · exact ih (.cons (Declaration.ofTag_same body) hscopes)
    | empty body =>
      rw [seek, seek]
      split
      · have hbody := Declaration.withInherited_same body (List.rel_reverse hscopes)
        exact .pieces (.cons (.empty hbody) .nil)
      · exact ih hscopes
    | stop body =>
      apply ih
      cases hscopes with
      | nil => exact .nil
      | cons _ hscopes => exact hscopes
    | _ => exact ih hscopes

theorem render_of_not_encode {ps : List Piece}
    (h : ¬ ∃ cs, ps.flatMap (·.written) = Text.encode cs) :
    render ps = .error (.markup malformedMarkup) := by
  rw [render]
  split
  · next text htext => exact absurd ⟨_, Text.ofBytes?_eq_some_iff.1 htext⟩ h
  · rfl

private theorem render_same {ps qs : List Piece} (h : List.Forall₂ (SamePiece False) ps qs) :
    render ps = render qs := by
  have hwritten : SameLines False (ps.flatMap (·.written)) (qs.flatMap (·.written)) :=
    .flatMap h fun _ _ => SamePiece.written
  by_cases htext : ∃ cs, ps.flatMap (·.written) = Text.encode cs
  · obtain ⟨cs, hps⟩ := htext
    rw [hps] at hwritten
    have hqs := hwritten.eq_encode_unixLines
    rw [render_eq hps, render_eq hqs, Text.unixLines_of_not_mem (Text.not_mem_unixLines cs)]
  · have htext' : ¬ ∃ ds, qs.flatMap (·.written) = Text.encode ds := by
      rintro ⟨ds, hqs⟩
      rw [hqs] at hwritten
      exact htext hwritten.exists_encode
    rw [render_of_not_encode htext, render_of_not_encode htext']

/-- Where returns stand only in front of line feeds, they have no part in what is handed out. -/
theorem extract_same (h : SameLines False xs ys) (document : String) (line column : Nat) :
    extract document line column xs = extract document line column ys := by
  obtain ⟨hevents, hending⟩ := eventsOf_same h
  have hfound := seek_same hevents ⟨line, column⟩ .nil
  rw [extract, extract]
  split
  · rfl
  · simp only [← hending]
    generalize seek ⟨line, column⟩ [] (eventsOf xs).1 = x at hfound ⊢
    generalize seek ⟨line, column⟩ [] (eventsOf ys).1 = y at hfound ⊢
    cases hfound with
    | pieces hps => exact render_same hps
    | unclosed => rfl
    | nothing => rfl

/-- A carriage return in front of every line feed. -/
def dosLines (bytes : Bytes) : Bytes :=
  bytes.flatMap fun b => if b = 0x0A then [0x0D, 0x0A] else [b]

private theorem sameLines_dosLines {bytes : Bytes} (h : 0x0D ∉ bytes) :
    SameLines False (dosLines bytes) bytes := by
  induction bytes with
  | nil => exact .nil
  | cons b bytes ih =>
    rw [List.mem_cons, not_or] at h
    rw [dosLines, List.flatMap_cons]
    split
    · next hb =>
      rw [hb]
      exact .pair (ih h.2)
    · exact .byte (Ne.symm h.1) (ih h.2)

/-- A document without carriage returns, whatever its bytes, has the same fragments and the same
errors at every line and column when each of its lines is ended by a return and a line feed. -/
theorem extract_dosLines (document : String) (line column : Nat) {bytes : Bytes}
    (h : 0x0D ∉ bytes) :
    extract document line column (dosLines bytes) = extract document line column bytes :=
  extract_same (sameLines_dosLines h) document line column

/-- Lines that end between attributes, in values, in a comment, in content and in an end tag. -/
def brokenLines : Bytes :=
  Text.toBytes "<r xmlns:p=\"u\nv\"\n><p:c\n a=\"x\ny\"><!--\n-->\n</p:c\n></r>"

theorem extract_dosLines_brokenLines : 0x0D ∉ brokenLines ∧
    extract "a.xsd" 3 2 (dosLines brokenLines) = extract "a.xsd" 3 2 brokenLines ∧
    extract "a.xsd" 3 2 brokenLines
      = .ok "<p:c\n a=\"x\ny\" xmlns:p=\"u\nv\"><!--\n-->\n</p:c>" := by
  have hplain : 0x0D ∉ brokenLines := by decide +kernel
  exact ⟨hplain, extract_dosLines "a.xsd" 3 2 hplain, by decide +kernel⟩

end XsdCatalog.Fragment
