import WeLang.Proofs.Relocating

/-!
# Trees without spans

Two sources that are laid out differently cannot have the same tree, because a
tree knows where everything stands. What they may have in common is what is left
when every span is forgotten: `Node.spanless`.

To forget spans is to put the same span in the place of each, so whatever is known of trees
in another place holds here. A change that does to a draft with other spans what it does to
the draft comes to the same on drafts that are the same but for spans (`Edit.Alike`). That
says nothing about sources. A pattern all of whose changes have it is `Pattern.SpanBlind`,
and those that are `Pattern.Natural` are.
-/

namespace WeLang

/-! ## Nodes -/

namespace Node

mutual

/-- A node all of whose spans are empty and at the beginning. -/
def spanless : Node → Node
  | ⟨selfType, inType, outType, _, payload⟩ =>
      ⟨selfType, inType, outType, default, spanlessPayload payload⟩

/-- The payload of such a node. -/
def spanlessPayload : Payload Node → Payload Node
  | .module usings entries => .module usings (spanlessRows entries)
  | .list items => .list (spanlessList items)
  | .map entries => .map (spanlessRows entries)
  | .function steps => .function (spanlessList steps)
  | .typeAlias target => .typeAlias target.spanless
  | .typeIdentity target => .typeIdentity target.spanless
  | .discard => .discard
  | .integer value => .integer value
  | .identifierChain path => .identifierChain path
  | .string text => .string text

/-- Such nodes in a list. -/
def spanlessList : List Node → List Node
  | [] => []
  | n :: ns => n.spanless :: spanlessList ns

/-- Such nodes under names. -/
def spanlessRows : List (String × Node) → List (String × Node)
  | [] => []
  | (key, n) :: rows => (key, n.spanless) :: spanlessRows rows

end

mutual

/-- To forget spans is to put another in the place of each. -/
theorem spanless_eq : (n : Node) → n.spanless = n.relocate fun _ => default
  | ⟨_, _, _, _, payload⟩ => by rw [spanless, relocate, spanlessPayload_eq payload]

theorem spanlessPayload_eq :
    (p : Payload Node) → spanlessPayload p = relocatePayload (fun _ => default) p
  | .module _ entries => by rw [spanlessPayload, relocatePayload, spanlessRows_eq entries]
  | .list items => by rw [spanlessPayload, relocatePayload, spanlessList_eq items]
  | .map entries => by rw [spanlessPayload, relocatePayload, spanlessRows_eq entries]
  | .function steps => by rw [spanlessPayload, relocatePayload, spanlessList_eq steps]
  | .typeAlias target => by rw [spanlessPayload, relocatePayload, spanless_eq target]
  | .typeIdentity target => by rw [spanlessPayload, relocatePayload, spanless_eq target]
  | .discard | .integer _ | .identifierChain _ | .string _ => rfl

theorem spanlessList_eq :
    (ns : List Node) → spanlessList ns = relocateList (fun _ => default) ns
  | [] => rfl
  | n :: ns => by rw [spanlessList, relocateList, spanless_eq n, spanlessList_eq ns]

theorem spanlessRows_eq :
    (rows : List (String × Node)) → spanlessRows rows = relocateRows (fun _ => default) rows
  | [] => rfl
  | (_, n) :: rows => by rw [spanlessRows, relocateRows, spanless_eq n, spanlessRows_eq rows]

end

end Node

/-! ## Drafts -/

namespace Draft

/-- A draft all of whose spans are empty and at the beginning. -/
def spanless (d : Draft) : Draft :=
  { d with payload := d.payload.map (Payload.mapChildren Node.spanless)
           children := d.children.map Node.spanless
           keys := d.keys.map fun key => (key.1, default)
           entries := d.entries.map fun entry => (entry.1, entry.2.spanless) }

theorem spanless_eq (d : Draft) : d.spanless = d.relocate fun _ => default := by
  have hnode : Node.spanless = Node.relocate fun _ => default := funext Node.spanless_eq
  simp only [spanless, relocate, hnode]

theorem spanless_restore (d e : Draft) :
    (d.restore e.mark).spanless = d.spanless.restore e.spanless.mark := by
  simp only [spanless_eq, relocate_restore]

theorem spanless_finish (d : Draft) (span : Span) :
    (d.finish span).spanless = d.spanless.finish default := by
  rw [Node.spanless_eq, spanless_eq, relocate_finish]

end Draft

/-! ## Changes of a draft -/

namespace Edit

/-- What two changes come to, if they come to the same but for spans. -/
inductive Agree : EStateM.Result ParseError Draft Unit → EStateM.Result ParseError Draft Unit →
    Prop
  | ok {d d' : Draft} (same : d.spanless = d'.spanless) : Agree (.ok () d) (.ok () d')
  | error {e e' : ParseError} {d d' : Draft} (cause : e.cause = e'.cause) :
      Agree (.error e d) (.error e' d')

/-- Changes that come to the same on drafts that are the same but for spans. -/
def Alike (f g : Edit) : Prop :=
  ∀ d d' : Draft, d.spanless = d'.spanless → Agree (f d) (g d')

/-- Changes that do the same to drafts without spans are alike. -/
theorem alike_of_moves {f g edit : Edit} (hf : Moves (fun _ => default) f edit)
    (hg : Moves (fun _ => default) g edit) : Alike f g := by
  intro d d' hd
  rw [Draft.spanless_eq, Draft.spanless_eq] at hd
  have hsame := (hf d).symm.trans ((congrArg edit hd).trans (hg d'))
  generalize f d = out at hsame
  generalize g d' = out' at hsame
  rcases out with ⟨u, e⟩ | ⟨err, e⟩ <;> rcases out' with ⟨u', e'⟩ | ⟨err', e'⟩ <;>
    simp only [relocated, reduceCtorEq, EStateM.Result.ok.injEq, EStateM.Result.error.injEq,
      ParseError.mk.injEq, ← Draft.spanless_eq] at hsame
  · exact .ok hsame.2
  · exact .error hsame.1.1

theorem alike_pure : Alike (pure ()) (pure ()) :=
  alike_of_moves moves_pure moves_pure

end Edit

/-! ## Patterns -/

namespace Pattern

variable {ν : Type}

/-- A pattern whose changes of a draft come to the same on drafts that are the same
but for spans. It ends behind a token or where it started, which the end of the
source does not, unless one only looks ahead to it. -/
def SpanBlind : Pattern ν → Prop
  | .token _ note => ∀ x x' : Lexeme, x.text = x'.text → (note x).Alike (note x')
  | .done | .never | .ref _ => True
  | .endOfInput => False
  | .andThen p q | .orElse p q => p.SpanBlind ∧ q.SpanBlind
  | .optional p | .many p | .separated p _ => p.SpanBlind
  | .ahead p => p = .endOfInput
  | .child p attach => p.SpanBlind ∧
      ∀ n n' : Node, n.spanless = n'.spanless → (attach n).Alike (attach n')
  | .andEdit p edit => p.SpanBlind ∧
      ∀ d d' : Draft, d.spanless = d'.spanless → (edit d).Alike (edit d')

/-- A pattern that takes trees in any place for the same looks at no span. -/
theorem Natural.spanBlind {p : Pattern ν} (h : p.Natural) : p.SpanBlind := by
  induction p with
  | token kind note =>
      intro x x' htext
      let y : Lexeme := { x with span := default }
      exact Edit.alike_of_moves (h _ x y rfl rfl) (h _ x' y htext rfl)
  | done | never | ref => trivial
  | endOfInput => exact h
  | andThen p q ihp ihq | orElse p q ihp ihq => exact ⟨ihp h.1, ihq h.2⟩
  | optional p ih | many p ih | separated p _ ih => exact ih h
  | ahead p => exact h
  | child p attach ih =>
      refine ⟨ih h.1, fun n n' hn => Edit.alike_of_moves (h.2 _ n) ?_⟩
      rw [← Node.spanless_eq, hn, Node.spanless_eq]
      exact h.2 _ n'
  | andEdit p edit ih =>
      refine ⟨ih h.1, fun d d' hd => Edit.alike_of_moves (h.2 _ d) ?_⟩
      rw [← Draft.spanless_eq, hd, Draft.spanless_eq]
      exact h.2 _ d'

end Pattern

end WeLang
