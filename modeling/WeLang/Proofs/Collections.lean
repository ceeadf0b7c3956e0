import WeLang.Proofs.Joining
import WeLang.Proofs.Spanless
import WeLang.Proofs.Typing
import WeLang.Proofs.Writing

/-!
# Lists and maps hold what is written

Take texts each of which is parsed as a value, and write them in brackets with separators
between, or in braces with a name before each. What comes of that has one more level of
nesting, and otherwise it is what one expects: a list of the values in the order in which they
are written, and a map in which each name has its value, all of them where they stand now.

Of the order in which entries are written a map knows nothing but where each of them stands.
If a name is written twice, the first that is there already breaks the parse off.
-/

namespace WeLang

open Matcher

variable {s : Source} {l l' : Limits}

/-! ## Lists -/

/-- Texts in brackets with separators between, and perhaps one behind the last. -/
def listText (rows : List (String × Parsed)) (trailing : Bool) : String :=
  "[" ++ ",".intercalate (rows.map Prod.fst) ++ (if trailing then "," else "") ++ "]"

theorem Draft.payload_completeList (ns : List Node) (span : Span) :
    ((blank.withChildren ns).completeList.finish span).payload = .list ns := by
  simp [completeList, takeChildren, complete, finish, withChildren, blank]

section

variable {rows : List (String × Parsed)} {f e : Nat}

/-- The items of a list that are written from its first byte on, up to the closing mark or to
a separator before it. -/
theorem crosses_written_items (hrows : ∀ row ∈ rows, ReadAs l row) (hsteps : l'.maxSteps = none)
    (hroom : l.maxDepth < l'.maxDepth) (hpos : 0 < l.maxDepth)
    (hopen : s.Piece 0 ⟨"["⟩) (hitems : s.Piece 1 ⟨",".intercalate (rows.map Prod.fst)⟩)
    (hf : 1 + (",".intercalate (rows.map Prod.fst)).utf8ByteSize = f) (hseam : s.Seam f)
    (hbehind : s.Closes f)
    (hend : ∀ d, Crosses ⟨s, l'⟩ 1
      (further ⟨s, l'⟩ (anyChild ⟨s, l'⟩) (.symbol .listSeparator)) f d e d)
    (hclose : s.Token (.symbol .listEnd) e (e + 1)) (hnil : rows = [] → f = e) :
    Crosses ⟨s, l'⟩ 1 (separated ⟨s, l'⟩ (anyChild ⟨s, l'⟩) (.symbol .listSeparator)) 1 .blank e
      (Draft.blank.withChildren (placeValues 1 rows)) := by
  cases rows with
  | nil =>
      obtain rfl : 1 = e := by
        rw [← hnil rfl, ← hf]
        rfl
      obtain ⟨x, hx, hk, -⟩ := hclose
      have hnone : x.kind ∉ Trial.openers := by
        rw [hk]
        decide
      have hdeep : 1 < l'.maxDepth := by omega
      rw [placeValues, spread, Draft.withChildren_nil]
      exact crosses_separated_of_lacks fun i hi => lacks_anyChild hsteps hdeep hx hnone hi
  | cons row rows =>
      have hsep : s.Leads (s.Token (.symbol .listSeparator)) "," :=
        Source.leads_mark (m := .listSeparator) (by decide +kernel) (by decide)
      have hseam' : s.Seam 1 := hopen.seam_behind (by decide +kernel)
      obtain ⟨hfirst, hrest, -⟩ := Source.joined_of_piece hsep
        (fun row hrow => Source.settled_value (hrows row hrow) hsteps hroom) hitems hf hseam'
        hseam hbehind
      exact crosses_items hsteps hfirst hrest hend

end

/-- What comes behind the items: a separator or none, and the closing mark. -/
theorem Source.crosses_listEnd {trailing : Bool} {f e : Nat}
    (h : s.Piece f ⟨(if trailing then "," else "") ++ "]"⟩) (hsteps : l'.maxSteps = none)
    (hdeep : 1 < l'.maxDepth) (he : f + (if trailing then "," else "").utf8ByteSize = e) :
    s.Token (.symbol .listEnd) e (e + 1) ∧ s.Seam f ∧ s.Closes f ∧ ∀ d,
      Crosses ⟨s, l'⟩ 1 (further ⟨s, l'⟩ (anyChild ⟨s, l'⟩) (.symbol .listSeparator)) f d e d := by
  have hclose : s.Piece e ⟨"]"⟩ := he ▸ h.right
  have hcloses : s.Token (.symbol .listEnd) e (e + 1) := hclose.token (m := .listEnd)
  obtain ⟨x, hx, hk, -⟩ := id hcloses
  cases trailing with
  | false =>
      obtain rfl : f = e := he
      exact ⟨hcloses, hclose.seam_before (by decide +kernel), hcloses.closes (by decide),
        fun d => crosses_further_of_ne hsteps hx (by rw [hk]; decide)⟩
  | true =>
      obtain rfl : f + 1 = e := he
      have hcomma : s.Token (.symbol .listSeparator) f (f + 1) :=
        h.left.token (m := .listSeparator)
      have hlacks (d : Draft) : Lacks 1 (anyChild ⟨s, l'⟩) (f + 1) d :=
        lacks_anyChild hsteps hdeep hx (by rw [hk]; decide) rfl
      exact ⟨hcloses, h.left.seam_before (by decide +kernel), hcomma.closes (by decide),
        fun d => crosses_further_trailing hsteps hcomma (hlacks d)⟩

/-- What is written in brackets is read as items between them. -/
theorem Source.crosses_listText {rows : List (String × Parsed)} {trailing : Bool}
    (hrows : ∀ row ∈ rows, ReadAs l row) (hne : trailing = true → rows ≠ [])
    (hsteps : l'.maxSteps = none) (hroom : l.maxDepth < l'.maxDepth) (hpos : 0 < l.maxDepth)
    (hs : s = ⟨listText rows trailing⟩) :
    ∃ e, s.Token (.symbol .listStart) 0 1 ∧
      Crosses ⟨s, l'⟩ 1 (separated ⟨s, l'⟩ (anyChild ⟨s, l'⟩) (.symbol .listSeparator)) 1 .blank e
        (Draft.blank.withChildren (placeValues 1 rows)) ∧
      s.Token (.symbol .listEnd) e s.size := by
  generalize hitems : ",".intercalate (rows.map Prod.fst) = items
  have htext : listText rows trailing =
      "[" ++ (items ++ ((if trailing then "," else "") ++ "]")) := by
    rw [listText, hitems]
    simp only [String.append_assoc]
  have hwhole : s.Piece 0 ⟨"[" ++ (items ++ ((if trailing then "," else "") ++ "]"))⟩ := by
    rw [← htext, ← hs]
    exact s.piece_whole
  have hopen : s.Piece 0 ⟨"["⟩ := hwhole.left
  have hinside : s.Piece 1 ⟨items ++ ((if trailing then "," else "") ++ "]")⟩ := hwhole.right
  have hsize : s.size =
      1 + items.utf8ByteSize + (if trailing then "," else "").utf8ByteSize + 1 := by
    rw [hs, htext]
    show ("[" ++ (items ++ ((if trailing then "," else "") ++ "]"))).utf8ByteSize = _
    rw [String.utf8ByteSize_append, String.utf8ByteSize_append, String.utf8ByteSize_append,
      ← Nat.add_assoc, ← Nat.add_assoc]
    rfl
  have hdeep : 1 < l'.maxDepth := by omega
  obtain ⟨hclose, hseam, hbehind, hend⟩ :=
    Source.crosses_listEnd hinside.right hsteps hdeep rfl
  have hnil (hrows : rows = []) : 1 + items.utf8ByteSize =
      1 + items.utf8ByteSize + (if trailing then "," else "").utf8ByteSize := by
    rw [if_neg fun htrailing => hne htrailing hrows]
    rfl
  subst hitems
  exact ⟨_, hopen.token (m := .listStart), crosses_written_items hrows hsteps hroom hpos hopen
    hinside.left rfl hseam hbehind hend hclose hnil, hsize ▸ hclose⟩

/-- Such a text is parsed as the list of what the texts are parsed as. -/
theorem Parse.list_of_rows {rows : List (String × Parsed)} (hrows : ∀ row ∈ rows, ReadAs l row)
    {trailing : Bool} (hne : trailing = true → rows ≠ []) (hsteps : l'.maxSteps = none)
    (hroom : l.maxDepth < l'.maxDepth) (hpos : 0 < l.maxDepth) :
    ∃ p, parse .value ⟨listText rows trailing⟩ l' = .ok p ∧
      p.node.payload = .list (placeValues 1 rows) := by
  generalize hs : (⟨listText rows trailing⟩ : Source) = s
  obtain ⟨e, hopen, hread, hclose⟩ :=
    Source.crosses_listText hrows hne hsteps hroom hpos hs.symm
  have hall : Crosses ⟨s, l'⟩ 1 _ 0 .blank s.size _ := crosses_list hsteps hopen hread hclose
  obtain ⟨x, hx, hk, -⟩ := hopen
  obtain ⟨p, span, hp, hnode⟩ := Parse.ok_of_crosses hsteps (by omega) hx
    ⟨_, List.mem_cons_self .., rfl, by rw [hk]; decide⟩ hall
  refine ⟨p, hp, ?_⟩
  rw [hnode, Draft.payload_completeList]

/-! ## Maps -/

/-- A name and a text with a mark between. -/
def entryText (row : String × String × Parsed) : String :=
  row.1 ++ ": " ++ row.2.1

/-- An opening brace and entries, each behind a blank. -/
def entriesText (rows : List (String × String × Parsed)) : String :=
  "\x7b" ++ String.join (rows.map fun row => " " ++ entryText row)

/-- Entries in braces. -/
def mapText (rows : List (String × String × Parsed)) : String :=
  entriesText rows ++ " \x7d"

/-- An entry where it is written, by its name and its value. -/
def placeEntry (d : Nat) (row : String × String × Parsed) : String × Node :=
  (row.1, placeValue (d + row.1.utf8ByteSize + 2) row.2)

/-- Entries where they are written. -/
def placeEntries (d : Nat) (rows : List (String × String × Parsed)) : List (String × Node) :=
  spread 1 entryText placeEntry d rows

/-- An entry where it is written, by the token of its name and its value. -/
def placeKeyed (d : Nat) (row : String × String × Parsed) : Lexeme × Node :=
  (⟨.identifier, row.1, ⟨d, d + row.1.utf8ByteSize⟩⟩,
    placeValue (d + row.1.utf8ByteSize + 2) row.2)

theorem placeEntries_eq (d : Nat) (rows : List (String × String × Parsed)) :
    (spread 1 entryText placeKeyed d rows).map (fun row => (row.1.text, row.2)) =
      placeEntries d rows :=
  map_spread _ 1 d entryText placeKeyed rows

theorem names_placeEntries (d : Nat) (rows : List (String × String × Parsed)) :
    (placeEntries d rows).map Prod.fst = rows.map Prod.fst := by
  rw [placeEntries, map_spread]
  exact spread_const Prod.fst 1 d entryText rows

theorem keys_spread (d : Nat) (rows : List (String × String × Parsed)) :
    (spread 1 entryText placeKeyed d rows).map (·.1.text) = rows.map Prod.fst := by
  rw [map_spread]
  exact spread_const Prod.fst 1 d entryText rows

theorem Source.settled_entry {row : String × String × Parsed} (hname : IsName row.1)
    (hrow : ReadAs l row.2) (hsteps : l'.maxSteps = none) (hroom : l.maxDepth < l'.maxDepth) :
    s.Settled (EntryStands ⟨s, l'⟩ 1) entryText placeKeyed row := by
  intro d hisland hbehind
  have htext : entryText row = row.1 ++ (":" ++ (" " ++ row.2.1)) := by
    rw [entryText, show (": " : String) = ":" ++ " " by decide]
    simp only [String.append_assoc]
  have hsize : d + (entryText row).utf8ByteSize =
      d + row.1.utf8ByteSize + 2 + row.2.1.utf8ByteSize := by
    rw [htext, String.utf8ByteSize_append, String.utf8ByteSize_append, String.utf8ByteSize_append]
    have hmark : (":" : String).utf8ByteSize = 1 := rfl
    have hblank : (" " : String).utf8ByteSize = 1 := rfl
    omega
  have hend : s.Seam (d + (entryText row).utf8ByteSize) := hisland.behind
  have hpiece : s.Piece d ⟨row.1 ++ (":" ++ (" " ++ row.2.1))⟩ := htext ▸ hisland.toPiece
  have hmark : s.Piece (d + row.1.utf8ByteSize) ⟨":"⟩ := hpiece.right.left
  have hblank : s.Piece (d + row.1.utf8ByteSize + 1) ⟨" "⟩ := hpiece.right.right.left
  have hvalue : s.Piece (d + row.1.utf8ByteSize + 2) ⟨row.2.1⟩ := hpiece.right.right.right
  have hkey := (Island.mk hpiece.left hisland.before
    (hmark.seam_before (by decide +kernel))).name_lexeme? hname
  have hcolon : s.Token (.symbol .define) (d + row.1.utf8ByteSize) (d + row.1.utf8ByteSize + 1) :=
    hmark.token (m := .define)
  rw [hsize] at hend hbehind ⊢
  have hstands := (Island.mk hvalue (hblank.seam_behind (by decide +kernel)) hend).stands hrow
    hsteps hroom hbehind
  refine ⟨⟨_, _, ⟨hkey, rfl, hcolon⟩, hblank.gap (by decide +kernel), hstands⟩, fun x hx => ?_⟩
  obtain rfl := Option.some.inj (hkey.symm.trans hx)
  simp

/-- What is written in braces is read as entries between them. -/
theorem Source.led_of_mapText {rows : List (String × String × Parsed)}
    (hrows : ∀ row ∈ rows, IsName row.1 ∧ ReadAs l row.2) (hsteps : l'.maxSteps = none)
    (hroom : l.maxDepth < l'.maxDepth) (hs : s = ⟨mapText rows⟩) :
    ∃ e, s.Token (.symbol .mapStart) 0 1 ∧
      Led s.Gap (EntryStands ⟨s, l'⟩ 1) 1 (spread 1 entryText placeKeyed 2 rows) e ∧
      s.Token (.symbol .mapEnd) e s.size := by
  generalize hentries : String.join (rows.map fun row => " " ++ entryText row) = entries
  have htext : mapText rows = "\x7b" ++ (entries ++ (" " ++ "\x7d")) := by
    rw [mapText, entriesText, hentries, show (" \x7d" : String) = " " ++ "\x7d" by decide]
    simp only [String.append_assoc]
  have hwhole : s.Piece 0 ⟨"\x7b" ++ (entries ++ (" " ++ "\x7d"))⟩ := by
    rw [← htext, ← hs]
    exact s.piece_whole
  have hinside : s.Piece 1 ⟨entries ++ (" " ++ "\x7d")⟩ := hwhole.right
  have hblank : s.Piece (1 + entries.utf8ByteSize) ⟨" "⟩ := hinside.right.left
  have hclose : s.Piece (1 + entries.utf8ByteSize + 1) ⟨"\x7d"⟩ := hinside.right.right
  have hsize : s.size = 1 + entries.utf8ByteSize + 1 + 1 := by
    rw [hs, htext]
    show ("\x7b" ++ (entries ++ (" " ++ "\x7d"))).utf8ByteSize = _
    rw [String.utf8ByteSize_append, String.utf8ByteSize_append, ← Nat.add_assoc]
    rfl
  have hcloses : s.Token (.symbol .mapEnd) (1 + entries.utf8ByteSize) s.size := by
    rw [hsize]
    exact (hclose.token (m := .mapEnd)).of_gap (hblank.gap (by decide +kernel))
  subst hentries
  obtain ⟨hled, -, -⟩ := Source.led_of_piece
    (leads_blank (s := s) (g := " ") (by decide +kernel) (by decide +kernel))
    (fun row hrow => settled_entry (hrows row hrow).1 (hrows row hrow).2 hsteps hroom)
    hinside.left rfl (hblank.seam_before (by decide +kernel)) (hcloses.closes (by decide))
  exact ⟨_, hwhole.left.token (m := .mapStart), hled, hcloses⟩

theorem Draft.finish_completeMap (rows : List (Lexeme × Node)) (span : Span) :
    (blank.withRows rows).completeMap.finish span =
      ⟨entriesType Claim.map (Table.ofKeyed rows), none, none, span,
        .map (Table.ofKeyed rows)⟩ := by
  simp [completeMap, takeEntries, entryTable, complete, finish, withRows, blank, Table.ofKeyed]

/-- Entries in braces with different names are parsed as the map of what their texts are parsed
as. -/
theorem Parse.map_of_rows {rows : List (String × String × Parsed)}
    (hrows : ∀ row ∈ rows, IsName row.1 ∧ ReadAs l row.2) (hsteps : l'.maxSteps = none)
    (hroom : l.maxDepth < l'.maxDepth) (hkeys : (rows.map Prod.fst).Nodup) :
    ∃ p span, parse .value ⟨mapText rows⟩ l' = .ok p ∧
      p.node = ⟨Draft.entriesType Claim.map (Table.ofRows (placeEntries 2 rows)), none, none, span,
        .map (Table.ofRows (placeEntries 2 rows))⟩ := by
  generalize hs : (⟨mapText rows⟩ : Source) = s
  obtain ⟨e, hopen, hled, hclose⟩ := Source.led_of_mapText hrows hsteps hroom hs.symm
  have hnodup : ((spread 1 entryText placeKeyed 2 rows).map (·.1.text)).Nodup := by
    rwa [keys_spread 2 rows]
  have hall : Crosses ⟨s, l'⟩ 1 _ 0 .blank s.size _ :=
    crosses_map hsteps hopen hled hclose hnodup
  obtain ⟨x, hx, hk, -⟩ := hopen
  obtain ⟨p, span, hp, hnode⟩ := Parse.ok_of_crosses hsteps (by omega) hx
    ⟨_, List.mem_cons_of_mem _ (List.mem_cons_self ..), rfl, by rw [hk]; decide⟩ hall
  refine ⟨p, span, hp, ?_⟩
  rw [hnode, Draft.finish_completeMap, Table.ofKeyed, placeEntries_eq]

/-- Behind some entries and a blank is where the next one is written. -/
theorem size_entriesText (rows : List (String × String × Parsed)) :
    2 + (rows.map fun row => (entryText row).utf8ByteSize + 1).sum =
      (entriesText rows).utf8ByteSize + 1 := by
  have hblank : (" " : String).utf8ByteSize = 1 := rfl
  have hbrace : ("\x7b" : String).utf8ByteSize = 1 := rfl
  have hrows : (rows.map fun row => (" " ++ entryText row).utf8ByteSize) =
      rows.map fun row => (entryText row).utf8ByteSize + 1 := by
    refine List.map_congr_left fun row _ => ?_
    rw [String.utf8ByteSize_append, hblank, Nat.add_comm]
  rw [entriesText, String.utf8ByteSize_append, hbrace, size_join, List.map_map]
  show _ = 1 + (rows.map fun row => (" " ++ entryText row).utf8ByteSize).sum + 1
  rw [hrows]
  omega

/-- Entries in braces are not parsed if a name is there twice. The first that is there already
is what is wrong. -/
theorem Parse.duplicate_of_rows {pre post : List (String × String × Parsed)}
    {row : String × String × Parsed}
    (hrows : ∀ other ∈ pre ++ row :: post, IsName other.1 ∧ ReadAs l other.2)
    (hsteps : l'.maxSteps = none) (hroom : l.maxDepth < l'.maxDepth)
    (hkeys : (pre.map Prod.fst).Nodup) (hold : row.1 ∈ pre.map Prod.fst) :
    parse .value ⟨mapText (pre ++ row :: post)⟩ l' = .error (ParseError.locate
      { cause := .duplicateKey row.1,
        span := ⟨(entriesText pre).utf8ByteSize + 1,
          (entriesText pre).utf8ByteSize + 1 + row.1.utf8ByteSize⟩ }
      ⟨mapText (pre ++ row :: post)⟩) := by
  generalize hs : (⟨mapText (pre ++ row :: post)⟩ : Source) = s
  obtain ⟨e, hopen, hled, -⟩ := Source.led_of_mapText hrows hsteps hroom hs.symm
  rw [spread_append, size_entriesText, spread, placeKeyed] at hled
  have hnodup : ((spread 1 entryText placeKeyed 2 pre).map (·.1.text)).Nodup := by
    rwa [keys_spread 2 pre]
  have hrepeated : row.1 ∈ (spread 1 entryText placeKeyed 2 pre).map (·.1.text) := by
    rwa [keys_spread 2 pre]
  have hfails : Fails 1 ((Grammar.map (.ref .value)).run ⟨s, l'⟩ (Grammar.meaning ⟨s, l'⟩)) 0
      .blank _ :=
    fails_map (x := ⟨.identifier, row.1, ⟨_, _⟩⟩) hsteps hopen hled hnodup hrepeated
  obtain ⟨x, hx, hk, -⟩ := hopen
  exact Parse.error_of_fails (by omega) (fails_value hsteps hx
    ⟨_, List.mem_cons_of_mem _ (List.mem_cons_self ..), rfl, by rw [hk]; decide⟩ hfails)

/-! ## Entries in another order -/

theorem Node.spanless_relocate (f : Span → Span) (n : Node) :
    (n.relocate f).spanless = n.spanless := by
  rw [spanless_eq, spanless_eq, relocate_relocate]
  rfl

theorem Node.spanless_map (selfType : Ty) (span : Span) (table : Table Node) :
    (Node.mk selfType none none span (.map table)).spanless =
      ⟨selfType, none, none, default, .map (Table.mapValues Node.spanless table)⟩ := by
  have hnode : Node.spanless = Node.relocate fun _ => default := funext Node.spanless_eq
  rw [hnode, relocate, relocatePayload_eq, Payload.mapChildren]

/-- What does not depend on where nodes stand does not depend on where entries are written. -/
theorem mapValues_placeEntries {α : Type} {f : Node → α}
    (hf : ∀ (n : Node) (g : Span → Span), f (n.relocate g) = f n) (d : Nat)
    (rows : List (String × String × Parsed)) :
    Table.mapValues f (Table.ofRows (placeEntries d rows)) =
      Table.ofRows (rows.map fun row => (row.1, f row.2.2.node)) := by
  rw [Table.mapValues_ofRows, placeEntries, map_spread]
  have hplace : (fun d row => ((placeEntry d row).1, f (placeEntry d row).2)) =
      fun _ (row : String × String × Parsed) => (row.1, f row.2.2.node) := by
    funext d row
    exact congrArg (Prod.mk row.1) (hf _ _)
  rw [hplace, spread_const]

/-- Maps of the same entries are of one type, and up to spans they are the same. -/
theorem map_of_perm {rows rows' : List (String × String × Parsed)} (h : rows'.Perm rows)
    (hkeys : (rows.map Prod.fst).Nodup) (d : Nat) {α : Type} {f : Node → α}
    (hf : ∀ (n : Node) (g : Span → Span), f (n.relocate g) = f n) :
    Table.mapValues f (Table.ofRows (placeEntries d rows')) =
      Table.mapValues f (Table.ofRows (placeEntries d rows)) := by
  rw [mapValues_placeEntries hf, mapValues_placeEntries hf]
  refine Table.ofRows_perm (h.map _) ?_
  rw [List.map_map]
  exact (h.map Prod.fst).nodup_iff.2 hkeys

theorem Table.lookup_eq_some_iff {α : Type} {rows : List (String × α)}
    (h : (rows.map Prod.fst).Nodup) {key : String} {x : α} :
    rows.lookup key = some x ↔ (key, x) ∈ rows := by
  induction rows with
  | nil => simp
  | cons row rows ih =>
      rw [List.map_cons, List.nodup_cons] at h
      rw [List.lookup_cons, List.mem_cons]
      by_cases hkey : key = row.1
      · subst hkey
        have hnone : (row.1, x) ∉ rows := fun hmem => h.1 (List.mem_map.2 ⟨_, hmem, rfl⟩)
        simp [hnone, Prod.ext_iff, eq_comm]
      · have hne : (key, x) ≠ row := fun heq => hkey (congrArg Prod.fst heq)
        rw [beq_false_of_ne hkey]
        simp [hne, ih h.2]

/-- In a table of rows with different names is what is in the rows. -/
theorem Table.get?_ofRows_eq_some {α : Type} {rows : List (String × α)}
    (h : (rows.map Prod.fst).Nodup) {key : String} {x : α} :
    (ofRows rows).get? key = some x ↔ (key, x) ∈ rows := by
  rw [get?_ofRows, lookup_eq_some_iff (by rwa [List.map_reverse, List.nodup_reverse]),
    List.mem_reverse]

/-- Tables that answer alike are the same. -/
theorem Table.Ordered.ext {α : Type} {t u : Table α} (ht : t.Ordered) (hu : u.Ordered)
    (h : ∀ name, t.get? name = u.get? name) : t = u := by
  have hnodup {t : Table α} (ht : t.Ordered) : (t.map Prod.fst).Nodup :=
    ht.imp ne_of_lt
  have hmem (row : String × α) : row ∈ t ↔ row ∈ u := by
    rw [← lookup_eq_some_iff (hnodup ht), ← lookup_eq_some_iff (hnodup hu)]
    exact Eq.congr_left (h row.1)
  have hperm : t.Perm u :=
    (List.perm_ext_iff_of_nodup (hnodup ht).of_map (hnodup hu).of_map).2 hmem
  calc t = ofRows t := (ht.ofRows_of_perm (.refl t)).symm
    _ = u := hu.ofRows_of_perm hperm

/-- Where something is there twice, there is a first that is there already. -/
theorem exists_first_repeated {α β : Type} {f : α → β} {as : List α} (h : ¬ (as.map f).Nodup) :
    ∃ pre a post, as = pre ++ a :: post ∧ (pre.map f).Nodup ∧ f a ∈ pre.map f := by
  induction as using List.reverseRecOn with
  | nil => exact absurd List.nodup_nil h
  | append_singleton as a ih =>
      by_cases hnodup : (as.map f).Nodup
      · refine ⟨as, a, [], rfl, hnodup, ?_⟩
        by_contra hnew
        refine h ?_
        rw [List.map_append]
        exact List.nodup_append'.2 ⟨hnodup, List.nodup_singleton _, by simpa using hnew⟩
      · obtain ⟨pre, b, post, rfl, hpre, hold⟩ := ih hnodup
        exact ⟨pre, b, post ++ [a], by simp, hpre, hold⟩

/-! ## The theorem -/

/-- Lists and maps hold what is written. Let texts be parsed as values. In brackets, with
separators between them and perhaps one behind the last, they are parsed as the list of these
values, and in braces, each behind a name of its own, as the map of them, where each stands
where it is written; all of it with one level of nesting more. In whatever order the entries
of a map are written, it is of one type, and but for spans it is the same. If a name is
written twice, what is wrong is the first that was there already, and that is where the error
points. -/
theorem collections_hold_what_is_written {D : Nat} (hD : 1 ≤ D) :
    (∀ (rows : List (String × Parsed)) (trailing : Bool),
      (∀ row ∈ rows, ReadAs { maxDepth := D } row) → (trailing = true → rows ≠ []) →
        ∃ p, parse .value ⟨listText rows trailing⟩ { maxDepth := D + 1 } = .ok p ∧
          p.node.payload = .list (placeValues 1 rows)) ∧
    (∀ rows : List (String × String × Parsed),
      (∀ row ∈ rows, IsName row.1 ∧ ReadAs { maxDepth := D } row.2) →
        ((rows.map Prod.fst).Nodup →
          ∃ (p : Parsed) (table : Table Node),
            parse .value ⟨mapText rows⟩ { maxDepth := D + 1 } = .ok p ∧
            p.node.payload = .map table ∧ table.Ordered ∧
            (∀ key n, table.get? key = some n ↔ (key, n) ∈ placeEntries 2 rows) ∧
            ∀ rows', rows'.Perm rows →
              ∃ p', parse .value ⟨mapText rows'⟩ { maxDepth := D + 1 } = .ok p' ∧
                p'.node.selfType = p.node.selfType ∧ p'.node.spanless = p.node.spanless) ∧
        (¬ (rows.map Prod.fst).Nodup →
          ∃ pre row post, rows = pre ++ row :: post ∧ (pre.map Prod.fst).Nodup ∧
            row.1 ∈ pre.map Prod.fst ∧
            parse .value ⟨mapText rows⟩ { maxDepth := D + 1 } = .error (ParseError.locate
              { cause := .duplicateKey row.1,
                span := ⟨(entriesText pre).utf8ByteSize + 1,
                  (entriesText pre).utf8ByteSize + 1 + row.1.utf8ByteSize⟩ }
              ⟨mapText rows⟩))) := by
  have hroom : ({ maxDepth := D } : Limits).maxDepth < ({ maxDepth := D + 1 } : Limits).maxDepth :=
    Nat.lt_succ_self D
  refine ⟨fun rows trailing hrows hne => ?_, fun rows hrows => ⟨fun hkeys => ?_, fun hkeys => ?_⟩⟩
  · exact Parse.list_of_rows hrows hne rfl hroom hD
  · obtain ⟨p, span, hp, hnode⟩ := Parse.map_of_rows hrows rfl hroom hkeys
    have hnames : ((placeEntries 2 rows).map Prod.fst).Nodup := by
      rwa [names_placeEntries]
    refine ⟨p, _, hp, by rw [hnode], Table.ordered_ofRows _,
      fun key n => Table.get?_ofRows_eq_some hnames, fun rows' hperm => ?_⟩
    have hrows' : ∀ row ∈ rows', IsName row.1 ∧ ReadAs { maxDepth := D } row.2 :=
      fun row hrow => hrows row (hperm.mem_iff.1 hrow)
    have hkeys' : (rows'.map Prod.fst).Nodup := (hperm.map Prod.fst).nodup_iff.2 hkeys
    obtain ⟨p', span', hp', hnode'⟩ := Parse.map_of_rows hrows' rfl hroom hkeys'
    have htype := map_of_perm hperm hkeys 2 fun n f => Node.selfType_relocate (f := f) n
    have hsame := map_of_perm hperm hkeys 2 fun n f => Node.spanless_relocate f n
    refine ⟨p', hp', ?_⟩
    rw [hnode, hnode', Node.spanless_map, Node.spanless_map, Draft.entriesType, Draft.entriesType,
      htype, hsame]
    exact ⟨rfl, rfl⟩
  · obtain ⟨pre, row, post, rfl, hpre, hold⟩ := exists_first_repeated hkeys
    exact ⟨pre, row, post, rfl, hpre, hold,
      Parse.duplicate_of_rows hrows rfl hroom hpre hold⟩

/-- Two place holders in a list, under two names and under one. -/
theorem collections_hold_what_is_written_discard :
    (∃ p, parse .value ⟨"[_,_,]"⟩ { maxDepth := 2 } = .ok p ∧
      ∃ items, p.node.payload = .list items ∧ items.map Node.span = [⟨1, 2⟩, ⟨3, 4⟩]) ∧
    (∃ (p : Parsed) (table : Table Node),
      parse .value ⟨"\x7b a: _ b: _ \x7d"⟩ { maxDepth := 2 } = .ok p ∧
      p.node.payload = .map table ∧ (table.get? "a").map Node.span = some ⟨5, 6⟩ ∧
      (table.get? "b").map Node.span = some ⟨10, 11⟩) ∧
    ∃ e : ParseError, parse .value ⟨"\x7b a: _ a: _ \x7d"⟩ { maxDepth := 2 } = .error e ∧
      e.cause = .duplicateKey "a" ∧ e.span = ⟨7, 8⟩ := by
  let discard : Parsed := ⟨⟨.leaf Claim.discard, none, none, ⟨0, 1⟩, .discard⟩, []⟩
  have hdiscard : ReadAs { maxDepth := 1 } ("_", discard) := by
    rw [ReadAs]
    cbv
  have hrow {key : String} (hkey : IsName key) :
      IsName key ∧ ReadAs { maxDepth := 1 } ("_", discard) := ⟨hkey, hdiscard⟩
  have ha : IsName "a" := by decide +kernel
  have hb : IsName "b" := by decide +kernel
  obtain ⟨hlist, hmap⟩ := collections_hold_what_is_written (Nat.le_refl 1)
  refine ⟨?_, ?_, ?_⟩
  · obtain ⟨p, hp, hpayload⟩ := hlist [("_", discard), ("_", discard)] true
      (by simpa using hdiscard) (by simp)
    exact ⟨p, hp, _, hpayload, by simp [placeValues, spread, placeValue]; decide⟩
  · obtain ⟨p, table, hp, hpayload, -, htable, -⟩ :=
      (hmap [("a", "_", discard), ("b", "_", discard)] (by simpa using ⟨hrow ha, hrow hb⟩)).1
        (by decide)
    have hfirst := (htable "a" _).2 (List.mem_cons_self ..)
    have hsecond := (htable "b" _).2 (List.mem_cons_of_mem _ (List.mem_cons_self ..))
    refine ⟨p, table, hp, hpayload, ?_, ?_⟩
    · rw [hfirst]
      rfl
    · rw [hsecond]
      rfl
  · obtain ⟨pre, row, post, hsplit, -, hold, herror⟩ :=
      (hmap [("a", "_", discard), ("a", "_", discard)] (by simpa using hrow ha)).2 (by decide)
    clear hlist hmap
    -- of two entries it can only be the second that has a name before it
    obtain ⟨rfl, rfl⟩ : pre = [("a", "_", discard)] ∧ row = ("a", "_", discard) := by
      cases pre with
      | nil => cases hold
      | cons first pre =>
          cases pre with
          | nil =>
              simp only [List.cons_append, List.nil_append, List.cons.injEq] at hsplit
              obtain ⟨rfl, rfl, -⟩ := hsplit
              exact ⟨rfl, rfl⟩
          | cons second pre => simp at hsplit
    have hplace : (entriesText [("a", "_", discard)]).utf8ByteSize + 1 = 7 := by decide +kernel
    rw [hplace, show mapText [("a", "_", discard), ("a", "_", discard)] =
      "\x7b a: _ a: _ \x7d" by decide +kernel] at herror
    exact ⟨_, herror, rfl, rfl⟩

end WeLang
