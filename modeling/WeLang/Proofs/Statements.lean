import WeLang.Proofs.Content
import WeLang.Proofs.Replaying
import Mathlib.Data.List.Nodup

/-!
# The statements of a module

A module is read as two rows of statements: first those that name a chain to be used, and
then the entries. `Source.Uses` and `Source.Rows` are such rows, with something left open,
which is what is known of the nodes in them. When a module has been read, they were made by
some run (`Parse.statements_of_ok`). And if they are such that every run makes them, every
run reads the module (`Matcher.goes_module`), as long as no key is there twice; the first
that is breaks it off (`Matcher.fails_module`).
-/

namespace WeLang

variable {cx : Context} {src : Source} {o m k o' δ : Nat} {d d' : Draft}
  {Q : Nat → Node → Nat → Prop}

/-! ## Rows of statements -/

/-- Statements of use, one after the other, each by the names of its chain. `Q` is what is
known of the nodes of the chains. -/
inductive Source.Uses (src : Source) (Q : Nat → Node → Nat → Prop) :
    Nat → List (List String) → Nat → Prop
  | nil (o : Nat) : Uses src Q o [] o
  | cons {o m k o' : Nat} {n : Node} {path : List String} {paths : List (List String)}
      (word : src.Token (.keyword .useWord) o m) (chain : Q m n k)
      (names : n.payload = .identifierChain path) (tail : Uses src Q k paths o') :
      Uses src Q o (path :: paths) o'

/-- Entries, one after the other, each by its key and the node of its value. -/
inductive Source.Rows (src : Source) (Q : Nat → Node → Nat → Prop) :
    Nat → List (Lexeme × Node) → Nat → Prop
  | nil (o : Nat) : Rows src Q o [] o
  | cons {o m k o' : Nat} {x : Lexeme} {n : Node} {rows : List (Lexeme × Node)}
      (key : src.Key o x m) (value : Q m n k) (tail : Rows src Q k rows o') :
      Rows src Q o ((x, n) :: rows) o'

/-- A table of nodes, each under the text of its key. -/
def Table.ofKeyed (rows : List (Lexeme × Node)) : Table Node :=
  Table.ofRows (rows.map fun row => (row.1.text, row.2))

namespace Draft

/-- A draft with some more chains in use. -/
def withUsings (d : Draft) (paths : List (List String)) : Draft :=
  { d with usings := d.usings ++ paths.toArray }

/-- A draft with some more entries. -/
def withRows (d : Draft) (rows : List (Lexeme × Node)) : Draft :=
  { d with entries := d.entries ++ (rows.map fun row => (row.1.text, row.2)).toArray }

@[simp] theorem withUsings_nil (d : Draft) : d.withUsings [] = d := by
  simp [withUsings]

theorem withUsings_cons (d : Draft) (path : List String) (paths : List (List String)) :
    d.withUsings (path :: paths) = (d.withUsings [path]).withUsings paths := by
  simp [withUsings]

@[simp] theorem withRows_nil (d : Draft) : d.withRows [] = d := by
  simp [withRows]

theorem withRows_cons (d : Draft) (x : Lexeme) (n : Node) (rows : List (Lexeme × Node)) :
    d.withRows ((x, n) :: rows) = (d.withRows [(x, n)]).withRows rows := by
  simp [withRows]

@[simp] theorem entryKeys_withRows (d : Draft) (rows : List (Lexeme × Node)) :
    (d.withRows rows).entryKeys = d.entryKeys ++ rows.map (·.1.text) := by
  simp [withRows, entryKeys, Function.comp_def]

/-- A draft with a key that waits for its value. -/
def withKey (d : Draft) (x : Lexeme) : Draft :=
  { d with keys := d.keys.push (x.text, x.span) }

theorem attachEntry_of_new {x : Lexeme} (n : Node) (h : x.text ∉ d.entryKeys) :
    attachEntry n (d.withKey x) = .ok () (d.withRows [(x, n)]) := by
  refine attachEntry_of_pushKey.2 ⟨?_, by simp [withRows]⟩
  rwa [← Bool.not_eq_true, hasEntry_iff]

theorem attachEntry_of_old {x : Lexeme} (n : Node) (h : x.text ∈ d.entryKeys) :
    attachEntry n (d.withKey x) = .error { cause := .duplicateKey x.text, span := x.span }
      { d.withKey x with keys := (d.withKey x).keys.pop } := by
  rw [attachEntry_eq n (Array.back?_push ..)]
  exact if_pos h

/-- A key that is not among those of a draft is one of them behind its entry. -/
theorem fresh_of_nodup {x : Lexeme} {n : Node} {rows : List (Lexeme × Node)}
    (h : (d.entryKeys ++ ((x, n) :: rows).map (·.1.text)).Nodup) :
    x.text ∉ d.entryKeys ∧
      ((d.withRows [(x, n)]).entryKeys ++ rows.map (·.1.text)).Nodup := by
  rw [List.map_cons, List.append_cons] at h
  refine ⟨fun hold => ?_, by rwa [entryKeys_withRows]⟩
  exact (List.nodup_append'.1 (List.nodup_append'.1 h).1).2.2 hold (List.mem_singleton_self _)

/-- What a module of such statements leaves. -/
def ofModule (paths : List (List String)) (rows : List (Lexeme × Node)) : Draft :=
  ((blank.withUsings paths).withRows rows).completeModule

theorem payload_ofModule (paths : List (List String)) (rows : List (Lexeme × Node)) (span : Span) :
    ((ofModule paths rows).finish span).payload = .module paths (Table.ofKeyed rows) := by
  simp [ofModule, completeModule, takeEntries, entryTable, complete, finish, withRows, withUsings,
    blank, Table.ofKeyed]

theorem attachUsing_of_payload {n : Node} {path : List String}
    (h : n.payload = .identifierChain path) (d : Draft) :
    attachUsing n d = .ok () (d.withUsings [path]) := by
  simp only [attachUsing, h]
  show EStateM.Result.ok () _ = .ok () _
  simp [withUsings]

end Draft

namespace Source

theorem Rows.append {rows rows' : List (Lexeme × Node)} (h : src.Rows Q o rows m)
    (h' : src.Rows Q m rows' o') : src.Rows Q o (rows ++ rows') o' := by
  induction h with
  | nil o => exact h'
  | cons key value _ ih => exact .cons key value (ih h')

/-- An entry begins where its key does, whatever blanks come before it. -/
theorem Key.congr {x : Lexeme} (h : src.Key o x m) (heq : src.skipBlanks o = src.skipBlanks o') :
    src.Key o' x m :=
  ⟨(lexeme?_congr heq).symm.trans h.here, h.name, h.colon⟩

/-- Rows are read where they begin up to blanks, and end where they end up to blanks. -/
theorem Rows.congr {rows : List (Lexeme × Node)} (h : src.Rows Q o rows k)
    (heq : src.skipBlanks o = src.skipBlanks o') :
    ∃ k', src.Rows Q o' rows k' ∧ src.skipBlanks k' = src.skipBlanks k := by
  cases h with
  | nil _ => exact ⟨o', .nil o', heq.symm⟩
  | cons key value tail => exact ⟨k, .cons (key.congr heq) value tail, rfl⟩

/-- Entries without their values. -/
theorem Rows.entries {rows : List (Lexeme × Node)}
    (hQ : ∀ ⦃m n k⦄, Q m n k → ∃ xs, src.Path m xs k ∧ Language.IsValue (xs.map Lexeme.kind))
    (h : src.Rows Q o rows o') : src.Entries o (rows.map Prod.fst) o' := by
  induction h with
  | nil o => exact .nil o
  | cons key value _ ih =>
      obtain ⟨xs, hxs, hshape⟩ := hQ value
      exact .cons key hxs hshape ih

theorem Uses.eq_of_nil (h : src.Uses Q o [] o') : o' = o := by
  cases h
  rfl

/-- Rows begin with a name, unless there are none. -/
theorem Rows.begins {rows : List (Lexeme × Node)} (h : src.Rows Q o rows o')
    (hend : src.isSpent o' = true) :
    src.isSpent o = true ∨ ∃ x, src.lexeme? o = some x ∧ x.kind = .identifier := by
  cases h with
  | nil _ => exact .inl hend
  | cons key _ _ => exact .inr ⟨_, key.here, key.name⟩

/-- Where entries begin there is no statement of use. -/
theorem Rows.not_answers {rows : List (Lexeme × Node)} {kind : TokenKind} (h : src.Rows Q o rows o')
    (hend : src.isSpent o' = true) (hk : kind ≠ .identifier) :
    ¬ kind.Answers src (src.skipBlanks o) := by
  rcases h.begins hend with hspent | ⟨x, hx, hname⟩
  · exact not_answers_of_isSpent hspent
  · exact not_answers_of_lexeme? hx (hname ▸ hk)

theorem Key.lt {x : Lexeme} (h : src.Key o x m) : o < m := by
  have := lexeme?_bounds h.here
  have := h.colon.le
  omega

end Source

/-! ## Some run -/

namespace Matcher

open Grammar

/-- What a value is read by, anywhere in a source. -/
abbrev anyValue (cx : Context) : Matcher :=
  valueWithin cx (cx.limits.maxDepth + 1)

/-- What a chain of names is read by. -/
abbrev anyChain (cx : Context) : Matcher :=
  (identifierChain : Pattern Nonterminal).run cx (meaning cx)

/-- What a statement of use is read by. -/
abbrev anyUse (cx : Context) : Matcher :=
  (useStatement : Pattern Nonterminal).run cx (meaning cx)

/-- What an entry is read by. -/
abbrev anyEntry (cx : Context) : Matcher :=
  (entry (.ref .value)).run cx (meaning cx)

theorem expect_lawful (cx : Context) (kind : TokenKind) :
    Lawful cx (·.isFatal = true) (expect cx kind) :=
  token_lawful (refusals_fatal cx) fun _ => .pure

theorem meaning_lawful (cx : Context) (n : Nonterminal) :
    Lawful cx (·.isFatal = true) (meaning cx n) :=
  valueWithin_lawful cx (cx.limits.maxDepth + 1)

theorem anyChain_lawful (cx : Context) : Lawful cx (·.isFatal = true) (anyChain cx) :=
  Pattern.run_lawful (refusals_fatal cx) (meaning_lawful cx) identifierChain_honest

theorem anyUse_lawful (cx : Context) : Lawful cx (·.isFatal = true) (anyUse cx) :=
  Pattern.run_lawful (refusals_fatal cx) (meaning_lawful cx) useStatement_honest

theorem anyEntry_lawful (cx : Context) : Lawful cx (·.isFatal = true) (anyEntry cx) :=
  Pattern.run_lawful (refusals_fatal cx) (meaning_lawful cx) (entry_honest ref_honest)

theorem anyChain_traced (cx : Context) :
    Traced ((identifierChain : Pattern Nonterminal).Traces cx.source
      fun _ => Leaves cx.source (cx.limits.maxDepth + 1)) (anyChain cx) :=
  (Pattern.run_traced (p := identifierChain) (fun _ => valueWithin_traced cx _)
    segments_harmless.tidy).1

theorem went_done (h : Went δ done o d o' d') : o' = o ∧ d' = d := by
  obtain ⟨_, _, -, hrun⟩ := h
  cases hrun
  exact ⟨rfl, rfl⟩

theorem went_use (h : Went δ (anyUse cx) o d o' d') :
    ∃ m n path, cx.source.Token (.keyword .useWord) o m ∧ Made cx δ (anyChain cx) m n o' ∧
      n.payload = .identifierChain path ∧ d' = d.withUsings [path] := by
  have h : Went δ (andThen (expect cx (.keyword .useWord))
    (andThen (child cx (anyChain cx) Draft.attachUsing) done)) o d o' d' := h
  obtain ⟨m, _, hfirst, hrest⟩ := went_andThen (expect_lawful cx _) h
  obtain ⟨hword, rfl⟩ := hfirst.traced (expect_traced cx _)
  have hchild : Lawful cx (·.isFatal = true) (child cx (anyChain cx) Draft.attachUsing) :=
    child_lawful (refusals_fatal cx) (anyChain_lawful cx) Draft.attachUsing_refusedFor
  obtain ⟨_, _, hchain, hdone⟩ := went_andThen hchild hrest
  obtain ⟨rfl, rfl⟩ := went_done hdone
  obtain ⟨n, hmade, hattach⟩ := went_child hchain
  obtain ⟨_, e, hwent, rfl⟩ := id hmade
  obtain ⟨e', -, hedit⟩ := went_andEdit hwent
  cases hedit
  have hnames : (e'.completeChain.finish (cx.source.spanOf m o')).payload =
      .identifierChain e'.names.toList := rfl
  rw [Draft.attachUsing_of_payload hnames] at hattach
  cases hattach
  exact ⟨m, _, _, hword, hmade, hnames, rfl⟩

theorem went_entry (h : Went δ (anyEntry cx) o d o' d') :
    ∃ x m n, cx.source.Key o x m ∧ Made cx δ (anyValue cx) m n o' ∧ x.text ∉ d.entryKeys ∧
      d' = d.withRows [(x, n)] := by
  have h : Went δ (andThen (token cx .identifier fun x => Draft.pushKey x.text x.span)
    (andThen (expect cx (.symbol .define))
      (andThen (child cx (anyValue cx) Draft.attachEntry) done))) o d o' d' := h
  have htoken : Lawful cx (·.isFatal = true)
      (token cx .identifier fun x => Draft.pushKey x.text x.span) :=
    token_lawful (refusals_fatal cx) fun _ => .modify _
  obtain ⟨_, _, hfirst, hrest⟩ := went_andThen htoken h
  obtain ⟨x, hx, hk, rfl, hkey⟩ := hfirst.traced (token_traced cx _ _)
  cases hkey
  obtain ⟨m, _, hsecond, hrest⟩ := went_andThen (expect_lawful cx _) hrest
  obtain ⟨hcolon, rfl⟩ := hsecond.traced (expect_traced cx _)
  have hchild : Lawful cx (·.isFatal = true) (child cx (anyValue cx) Draft.attachEntry) :=
    child_lawful (refusals_fatal cx) (valueWithin_lawful cx _) Draft.attachEntry_refusedFor
  obtain ⟨_, _, hvalue, hdone⟩ := went_andThen hchild hrest
  obtain ⟨rfl, rfl⟩ := went_done hdone
  obtain ⟨n, hmade, hattach⟩ := went_child hvalue
  obtain ⟨hnew, rfl⟩ := Draft.attachEntry_of_pushKey.1 hattach
  refine ⟨x, m, n, ⟨hx, hk, hcolon⟩, hmade, ?_, by simp [Draft.withRows]⟩
  rw [← Draft.hasEntry_iff, hnew]
  exact Bool.false_ne_true

theorem uses_of_star (h : Trace.Star (Went δ (anyUse cx)) o d o' d') :
    ∃ paths, cx.source.Uses (Made cx δ (anyChain cx)) o paths o' ∧ d' = d.withUsings paths := by
  induction h with
  | refl o d => exact ⟨[], .nil o, by simp⟩
  | step head _ ih =>
      obtain ⟨m, n, path, hword, hchain, hnames, rfl⟩ := went_use head
      obtain ⟨paths, htail, rfl⟩ := ih
      exact ⟨path :: paths, .cons hword hchain hnames htail, (Draft.withUsings_cons ..).symm⟩

theorem rows_of_star (h : Trace.Star (Went δ (anyEntry cx)) o d o' d') :
    ∃ rows, cx.source.Rows (Made cx δ (anyValue cx)) o rows o' ∧ d' = d.withRows rows ∧
      (d.entryKeys.Nodup → d'.entryKeys.Nodup) := by
  induction h with
  | refl o d => exact ⟨[], .nil o, by simp, id⟩
  | step head _ ih =>
      obtain ⟨x, m, n, hkey, hvalue, hnew, rfl⟩ := went_entry head
      obtain ⟨rows, htail, rfl, hnodup⟩ := ih
      refine ⟨(x, n) :: rows, .cons hkey hvalue htail, (Draft.withRows_cons ..).symm,
        fun h => hnodup ?_⟩
      rw [Draft.entryKeys_withRows]
      exact List.nodup_append'.2 ⟨h, List.nodup_singleton _, by simpa using hnew⟩

/-- What a repetition of a pattern that only adds to a draft comes to. -/
theorem star_of_went {p : Pattern Nonterminal} (hhonest : p.Honest (·.isFatal = true))
    (hp : p.Harmless cx.source fun _ => Leaves cx.source (cx.limits.maxDepth + 1))
    (h : Went δ (many cx (p.run cx (meaning cx))) o d o' d') :
    Trace.Star (Went δ (p.run cx (meaning cx))) o d o' d' := by
  obtain ⟨htraced, hundone⟩ := Pattern.run_traced (fun n => valueWithin_traced cx _) hp.tidy
  exact went_many (Pattern.run_lawful (refusals_fatal cx) (meaning_lawful cx) hhonest) htraced
    (hundone hp.undoable) hp.growing h

theorem matcher_module (cx : Context) :
    Grammar.matcher cx Grammar.module =
      andEdit (andThen (many cx (anyUse cx)) (andThen (many cx (anyEntry cx))
        (andThen (endOfInput cx) done))) fun _ => modify Draft.completeModule := rfl

/-- What some run of a module has come to is two rows of statements. -/
theorem went_module (h : Went δ (Grammar.matcher cx Grammar.module) o .blank o' d') :
    ∃ paths rows m k, cx.source.Uses (Made cx δ (anyChain cx)) o paths m ∧
      cx.source.Rows (Made cx δ (anyValue cx)) m rows k ∧ cx.source.isSpent k = true ∧
        (rows.map (·.1.text)).Nodup ∧ d' = .ofModule paths rows := by
  rw [matcher_module] at h
  obtain ⟨_, hall, hedit⟩ := went_andEdit h
  cases hedit
  obtain ⟨m, _, huses, hrest⟩ := went_andThen (many_lawful (anyUse_lawful cx)) hall
  obtain ⟨k, _, hrows, hrest⟩ := went_andThen (many_lawful (anyEntry_lawful cx)) hrest
  obtain ⟨_, _, hend, hdone⟩ :=
    went_andThen (E := (·.isFatal = true)) endOfInput_lawful hrest
  obtain ⟨rfl, rfl⟩ := went_done hdone
  obtain ⟨hspent, rfl, rfl⟩ := hend.traced (endOfInput_traced cx)
  obtain ⟨paths, hpaths, rfl⟩ :=
    uses_of_star (star_of_went useStatement_honest useStatement_harmless huses)
  obtain ⟨rows, hkeys, rfl, hnodup⟩ :=
    rows_of_star (star_of_went (entry_honest ref_honest) (entry_harmless ref_tidy) hrows)
  refine ⟨paths, rows, m, k, hpaths, hkeys, hspent, ?_, rfl⟩
  simpa [Draft.entryKeys, Draft.blank, Draft.withUsings, Draft.withRows, Function.comp_def] using
    hnodup List.nodup_nil

/-! ## Every run -/

variable {x : Lexeme} {n : Node} {paths : List (List String)} {rows pre post : List (Lexeme × Node)}

theorem goes_use {path : List String} (hsteps : cx.limits.maxSteps = none)
    (hword : cx.source.Token (.keyword .useWord) o m) (hchain : Makes cx δ (anyChain cx) m n o')
    (hnames : n.payload = .identifierChain path) :
    Goes δ (anyUse cx) o d o' (d.withUsings [path]) := by
  have hchild := goes_child hchain (Draft.attachUsing_of_payload hnames d)
  exact goes_andThen (goes_expect hsteps hword) (goes_andThen hchild goes_done)

/-- Up to its value every entry is there. -/
theorem goes_key (hsteps : cx.limits.maxSteps = none) (hkey : cx.source.Key o x m) :
    Goes δ (token cx .identifier fun x => Draft.pushKey x.text x.span) o d x.span.stop
        (d.withKey x) ∧
      Goes δ (expect cx (.symbol .define)) x.span.stop (d.withKey x) m (d.withKey x) := by
  refine ⟨?_, goes_expect hsteps hkey.colon⟩
  rw [← hkey.name]
  exact goes_token hsteps hkey.here rfl

theorem goes_entry (hsteps : cx.limits.maxSteps = none) (hkey : cx.source.Key o x m)
    (hvalue : Makes cx δ (anyValue cx) m n o') (hnew : x.text ∉ d.entryKeys) :
    Goes δ (anyEntry cx) o d o' (d.withRows [(x, n)]) := by
  obtain ⟨hname, hcolon⟩ := goes_key (d := d) hsteps hkey
  have hchild := goes_child hvalue (Draft.attachEntry_of_new n hnew)
  exact goes_andThen hname (goes_andThen hcolon (goes_andThen hchild goes_done))

theorem fails_entry (hsteps : cx.limits.maxSteps = none) (hkey : cx.source.Key o x m)
    (hvalue : Makes cx δ (anyValue cx) m n o') (hold : x.text ∈ d.entryKeys) :
    Fails δ (anyEntry cx) o d { cause := .duplicateKey x.text, span := x.span } := by
  obtain ⟨hname, hcolon⟩ := goes_key (d := d) hsteps hkey
  have hchild := fails_child hvalue (Draft.attachEntry_of_old n hold)
  exact hname.andThen_fails (hcolon.andThen_fails (fails_andThen hchild))

theorem goes_uses (hsteps : cx.limits.maxSteps = none)
    (h : cx.source.Uses (Makes cx δ (anyChain cx)) o paths o')
    (hend : ¬ (TokenKind.keyword .useWord).Answers cx.source (cx.source.skipBlanks o')) :
    Goes δ (many cx (anyUse cx)) o d o' (d.withUsings paths) := by
  induction h generalizing d with
  | nil o =>
      rw [Draft.withUsings_nil]
      exact goes_many_of_lacks (lacks_andThen (lacks_token hsteps hend))
  | cons hword hchain hnames _ ih =>
      have hlt := Nat.lt_of_lt_of_le hword.lt (hchain.le (anyChain_lawful cx))
      rw [Draft.withUsings_cons]
      exact (goes_use hsteps hword hchain hnames).many_goes (anyUse_lawful cx)
        (Nat.lt_of_le_of_lt (cx.source.le_skipBlanks _) hlt) (ih hend)

theorem goes_rows (hsteps : cx.limits.maxSteps = none)
    (h : cx.source.Rows (Makes cx δ (anyValue cx)) o rows o')
    (hkeys : (d.entryKeys ++ rows.map (·.1.text)).Nodup)
    (hend : ¬ TokenKind.identifier.Answers cx.source (cx.source.skipBlanks o')) :
    Goes δ (many cx (anyEntry cx)) o d o' (d.withRows rows) := by
  induction h generalizing d with
  | nil o =>
      rw [Draft.withRows_nil]
      exact goes_many_of_lacks (lacks_andThen (lacks_token hsteps hend))
  | @cons o m k o' x n rows hkey hvalue _ ih =>
      have hlt := Nat.lt_of_lt_of_le hkey.lt (hvalue.le (valueWithin_lawful cx _))
      obtain ⟨hnew, hkeys⟩ := Draft.fresh_of_nodup hkeys
      rw [Draft.withRows_cons]
      exact (goes_entry hsteps hkey hvalue hnew).many_goes (anyEntry_lawful cx) hlt (ih hkeys hend)

/-- The first key that is there already breaks the row off. -/
theorem fails_rows (hsteps : cx.limits.maxSteps = none)
    (h : cx.source.Rows (Makes cx δ (anyValue cx)) o (pre ++ (x, n) :: post) o')
    (hkeys : (d.entryKeys ++ pre.map (·.1.text)).Nodup)
    (hold : x.text ∈ d.entryKeys ++ pre.map (·.1.text)) :
    Fails δ (many cx (anyEntry cx)) o d { cause := .duplicateKey x.text, span := x.span } := by
  induction pre generalizing o d with
  | nil =>
      cases h with
      | cons hkey hvalue _ =>
          exact fails_many (fails_entry hsteps hkey hvalue (by simpa using hold))
  | cons row pre ih =>
      cases h with
      | @cons _ m k _ y n' _ hkey hvalue htail =>
          have hlt := Nat.lt_of_lt_of_le hkey.lt (hvalue.le (valueWithin_lawful cx _))
          obtain ⟨hnew, hkeys⟩ := Draft.fresh_of_nodup hkeys
          refine (goes_entry hsteps hkey hvalue hnew).many_fails (anyEntry_lawful cx) hlt
            (ih htail hkeys ?_)
          rwa [Draft.entryKeys_withRows, List.append_assoc]

/-- Every run reads a module whose statements every run makes, if no key is there twice. -/
theorem goes_module (hsteps : cx.limits.maxSteps = none)
    (huses : cx.source.Uses (Makes cx δ (anyChain cx)) o paths m)
    (hrows : cx.source.Rows (Makes cx δ (anyValue cx)) m rows k)
    (hend : cx.source.isSpent k = true) (hkeys : (rows.map (·.1.text)).Nodup) :
    Goes δ (Grammar.matcher cx Grammar.module) o .blank (cx.source.skipBlanks k)
      (.ofModule paths rows) := by
  have huses := goes_uses (d := .blank) hsteps huses (hrows.not_answers hend (by simp))
  have hrows := goes_rows (d := Draft.blank.withUsings paths) hsteps hrows hkeys
    (Source.not_answers_of_isSpent hend)
  rw [matcher_module]
  refine goes_andEdit ?_ rfl
  exact goes_andThen huses (goes_andThen hrows (goes_andThen (goes_endOfInput hend) goes_done))

/-- Otherwise every run is broken off at the first key that is there already. -/
theorem fails_module (hsteps : cx.limits.maxSteps = none)
    (huses : cx.source.Uses (Makes cx δ (anyChain cx)) o paths m)
    (hrows : cx.source.Rows (Makes cx δ (anyValue cx)) m (pre ++ (x, n) :: post) k)
    (hend : cx.source.isSpent k = true) (hkeys : (pre.map (·.1.text)).Nodup)
    (hold : x.text ∈ pre.map (·.1.text)) :
    Fails δ (Grammar.matcher cx Grammar.module) o .blank
      { cause := .duplicateKey x.text, span := x.span } := by
  have huses := goes_uses (d := .blank) hsteps huses (hrows.not_answers hend (by simp))
  have hrows := fails_rows (d := Draft.blank.withUsings paths) hsteps hrows hkeys hold
  rw [matcher_module]
  exact fails_andEdit (huses.andThen_fails (fails_andThen hrows))

end Matcher

/-! ## Whole sources -/

open Matcher

variable {l : Limits} {p : Parsed} {paths : List (List String)}
  {rows pre post : List (Lexeme × Node)}

/-- The statements of a source that was parsed as a module. -/
theorem Parse.statements_of_ok (h : parse .module src l = .ok p) :
    ∃ paths rows m k, src.Uses (Made ⟨src, l⟩ 1 (anyChain ⟨src, l⟩)) 0 paths m ∧
      src.Rows (Made ⟨src, l⟩ 1 (anyValue ⟨src, l⟩)) m rows k ∧ src.isSpent k = true ∧
        (rows.map (·.1.text)).Nodup ∧
          p.node.payload = .module paths (Table.ofKeyed rows) := by
  obtain ⟨found, q, hout, rfl⟩ := parse_eq_ok.1 h
  obtain ⟨stop, t, hrun, rfl, -⟩ := Parse.run_of_outcome_ok hout
  have hwent : Went 1 (Grammar.matcher ⟨src, l⟩ Grammar.module) 0 .blank stop t.draft :=
    ⟨_, t.progress, rfl, hrun⟩
  obtain ⟨paths, rows, m, k, huses, hrows, hspent, hkeys, hdraft⟩ := went_module hwent
  refine ⟨paths, rows, m, k, huses, hrows, hspent, hkeys, ?_⟩
  rw [hdraft, Draft.payload_ofModule]

/-- Statements that every run makes are parsed as a module. -/
theorem Parse.ok_of_statements {m k : Nat} (hsteps : l.maxSteps = none) (hroom : 0 < l.maxDepth)
    (huses : src.Uses (Makes ⟨src, l⟩ 1 (anyChain ⟨src, l⟩)) 0 paths m)
    (hrows : src.Rows (Makes ⟨src, l⟩ 1 (anyValue ⟨src, l⟩)) m rows k)
    (hend : src.isSpent k = true) (hkeys : (rows.map (·.1.text)).Nodup) :
    ∃ p, parse .module src l = .ok p ∧ p.node.payload = .module paths (Table.ofKeyed rows) := by
  have hgoes : Goes 1 (Goal.module.matcher ⟨src, l⟩) 0 .blank _ _ :=
    goes_module hsteps huses hrows hend hkeys
  obtain ⟨r', -, hrun⟩ := hgoes Progress.none.deeper rfl
  have hout : Parse.outcome .module ⟨src, l⟩ = _ := Parse.outcome_of_room hroom
  rw [hrun] at hout
  exact ⟨_, parse_eq_ok.2 ⟨_, _, hout, rfl⟩, Draft.payload_ofModule ..⟩

/-- Unless a key is there twice. The first that is there already is what is wrong. -/
theorem Parse.error_of_statements {m k : Nat} {x : Lexeme} {n : Node} (hsteps : l.maxSteps = none)
    (hroom : 0 < l.maxDepth)
    (huses : src.Uses (Makes ⟨src, l⟩ 1 (anyChain ⟨src, l⟩)) 0 paths m)
    (hrows : src.Rows (Makes ⟨src, l⟩ 1 (anyValue ⟨src, l⟩)) m (pre ++ (x, n) :: post) k)
    (hend : src.isSpent k = true) (hkeys : (pre.map (·.1.text)).Nodup)
    (hold : x.text ∈ pre.map (·.1.text)) :
    parse .module src l = .error { cause := .duplicateKey x.text, span := x.span,
                                   location := some (src.locate x.span.start) } := by
  have hfails : Fails 1 (Goal.module.matcher ⟨src, l⟩) 0 .blank _ :=
    fails_module hsteps huses hrows hend hkeys hold
  obtain ⟨t, hrun⟩ := hfails Progress.none.deeper rfl
  have hout : Parse.outcome .module ⟨src, l⟩ = _ := Parse.outcome_of_room hroom
  rw [hrun] at hout
  exact parse_eq_error.2 ⟨_, _, hout, rfl⟩

end WeLang
