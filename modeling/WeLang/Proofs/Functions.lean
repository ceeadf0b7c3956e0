import WeLang.Proofs.Writing

/-!
# Functions run what is written

Texts each of which is parsed as a value are written behind each other as clauses, and the
clauses in brackets with marks between them. Data flows leftwards within a clause, so the
steps of what is parsed are the values of one clause after the other, but each clause from its
last value to its first (`placeSteps`). A clause may be empty, and if they all are there are
no steps.

What goes in and what comes out is that of the first and of the last step, unless a signature
before the clauses says so. The signature changes nothing about the steps but where they
stand. If it is not there, what is may still look like it for two tokens, and nothing of that
may be left.
-/

namespace WeLang

open Matcher

variable {s : Source} {l l' : Limits}

/-! ## Clauses -/

/-- Texts with a blank between any two. -/
def clauseText (clause : List (String × Parsed)) : String :=
  " ".intercalate (clause.map Prod.fst)

/-- Clauses with marks between, behind what a function begins with. -/
def functionText (head : String) (clauses : List (List (String × Parsed))) : String :=
  head ++ ";".intercalate (clauses.map clauseText) ++ ")"

/-- The steps of clauses, the first of which is written at `d`. -/
def placeSteps (d : Nat) (clauses : List (List (String × Parsed))) : List Node :=
  (spread 1 clauseText placeValues d clauses).flatMap List.reverse

namespace Source

/-- A clause is read where it is written as the values in it. -/
theorem settled_clause {clause : List (String × Parsed)} (hrows : ∀ row ∈ clause, ReadAs l row)
    (hsteps : l'.maxSteps = none) (hroom : l.maxDepth < l'.maxDepth) :
    s.Settled (Led s.Gap (Stands ⟨s, l'⟩ 1)) clauseText placeValues clause := by
  intro d hisland hbehind
  cases clause with
  | nil => exact ⟨.nil d, hbehind⟩
  | cons row rows =>
      have hblank : s.Leads s.Gap " " := leads_blank (by decide +kernel) (by decide +kernel)
      obtain ⟨hfirst, hrest, hopens⟩ := joined_of_piece hblank
        (fun other hother => settled_value (hrows other hother) hsteps hroom) hisland.toPiece rfl
        hisland.before hisland.behind hbehind
      exact ⟨.cons rfl hfirst hrest, hopens⟩

end Source

/-! ## What a function begins with -/

/-- An opening mark, perhaps behind the word for a function. -/
def functionHead (word : Bool) : String :=
  (if word then "fn " else "") ++ "("

/-- Two names between marks. -/
def signatureText (input output : String) : String :=
  "<" ++ input ++ " " ++ output ++ ">"

namespace Source

/-- The word for a function makes no difference to the draft. -/
theorem opens_function {word : Bool} (h : s.Piece 0 ⟨functionHead word⟩)
    (hsteps : l'.maxSteps = none) :
    ∃ m, Crosses ⟨s, l'⟩ 1 (optional (expect ⟨s, l'⟩ (.keyword .fnWord))) 0 .blank m .blank ∧
      s.Token (.symbol .functionStart) m (functionHead word).utf8ByteSize ∧
      ∃ x, s.lexeme? 0 = some x ∧ x.kind ∈ [.keyword .fnWord, .symbol .functionStart] := by
  cases word with
  | false =>
      have hopen : s.Token (.symbol .functionStart) 0 1 := h.token (m := .functionStart)
      obtain ⟨x, hx, hk, -⟩ := id hopen
      have hnone {i : Nat} (hi : s.Gap i 0) :
          ¬ (TokenKind.keyword .fnWord).Answers s (s.skipBlanks i) :=
        not_answers_of_lexeme? ((lexeme?_congr hi).trans hx) (by simp [hk])
      exact ⟨0, crosses_optional_of_misses fun i hi => (lacks_token hsteps (hnone hi)).misses,
        hopen, x, hx, by simp [hk]⟩
  | true =>
      have hword : s.Piece 0 ⟨"fn" ++ (" " ++ "(")⟩ := h
      have hblank : s.Piece 2 ⟨" "⟩ := hword.right.left
      have hopen : s.Token (.symbol .functionStart) 3 4 :=
        hword.right.right.token (m := .functionStart)
      have hkeyword : lexeme? ⟨"fn"⟩ 0 = some ⟨.keyword .fnWord, "fn", ⟨0, 2⟩⟩ := by cbv
      have hfirst := (Island.mk hword.left s.seam_zero
        (hblank.seam_before (by decide +kernel))).lexeme? hkeyword
      exact ⟨2, crosses_optional (crosses_expect hsteps ⟨_, hfirst, rfl, rfl⟩),
        hopen.of_gap (hblank.gap (by decide +kernel)), _, hfirst, by simp [Lexeme.shift]⟩

/-- A signature where it is written says what the edges are. -/
theorem crosses_signatureText {input output : String} {d : Nat}
    (h : s.Piece d ⟨signatureText input output⟩) (hinput : IsName input)
    (houtput : IsName output) (hsteps : l'.maxSteps = none) (draft : Draft) :
    Crosses ⟨s, l'⟩ 1 (anySignature ⟨s, l'⟩) d draft
      (d + (signatureText input output).utf8ByteSize) (draft.withEdges input output) := by
  have htext : signatureText input output = "<" ++ (input ++ (" " ++ (output ++ ">"))) := by
    simp only [signatureText, String.append_assoc]
  rw [htext] at h ⊢
  have hopen : s.Piece d ⟨"<"⟩ := h.left
  have hblank : s.Piece (d + 1 + input.utf8ByteSize) ⟨" "⟩ := h.right.right.left
  have hclose : s.Piece (d + 1 + input.utf8ByteSize + 1 + output.utf8ByteSize) ⟨">"⟩ :=
    h.right.right.right.right
  have hfirst := (Island.mk h.right.left (hopen.seam_behind (by decide +kernel))
    (hblank.seam_before (by decide +kernel))).name_lexeme? hinput
  have hsecond := (Island.mk h.right.right.right.left (hblank.seam_behind (by decide +kernel))
    (hclose.seam_before (by decide +kernel))).name_lexeme? houtput
  have hsize : d + ("<" ++ (input ++ (" " ++ (output ++ ">")))).utf8ByteSize =
      d + 1 + input.utf8ByteSize + 1 + output.utf8ByteSize + 1 := by
    simp only [String.utf8ByteSize_append, ← Nat.add_assoc]
    rfl
  rw [hsize]
  have hgap : s.Gap (d + 1 + input.utf8ByteSize) (d + 1 + input.utf8ByteSize + 1) :=
    hblank.gap (by decide +kernel)
  have hnext := (lexeme?_congr hgap).trans hsecond
  have hopening : s.Token (.symbol .typeParameterStart) d (d + 1) :=
    hopen.token (m := .typeParameterStart)
  refine crosses_signature (x := ⟨.identifier, input, ⟨_, _⟩⟩) (y := ⟨.identifier, output, ⟨_, _⟩⟩)
    hsteps hopening hfirst rfl hnext rfl ?_
  exact hclose.token (m := .typeParameterEnd)

/-- No name goes on behind a text whose last part keeps names apart. -/
theorem Piece.seam_behind_append {text g : String} {d : Nat} (h : s.Piece d ⟨text ++ g⟩)
    (hg : Bare g) : s.Seam (d + (text ++ g).utf8ByteSize) := by
  rw [String.utf8ByteSize_append, ← Nat.add_assoc]
  exact h.right.seam_behind hg

theorem piece_functionText {head : String} {clauses : List (List (String × Parsed))} :
    Piece ⟨functionText head clauses⟩ 0 ⟨head⟩ := by
  rw [functionText, String.append_assoc]
  exact (piece_whole _).left

end Source

/-! ## Whole functions -/

/-- What is made of steps: the edges are those that are known, else those of the steps. -/
theorem Draft.finish_completeFunction (d : Draft) (steps : List Node) (span : Span)
    (hnone : d.children = #[]) :
    let n := (d.withChildren steps).completeFunction.finish span
    n.payload = .function steps ∧ n.inType = d.inType.or (stepsInput? steps) ∧
      n.outType = d.outType.or (stepsOutput? steps) := by
  simp [completeFunction, takeChildren, complete, finish, withChildren, hnone]

section

variable {head : String} {clauses : List (List (String × Parsed))} {d : Draft} {m m₁ : Nat}

/-- What is written behind the beginning of a function is read as clauses up to its end. -/
theorem Source.led_of_functionText {clause : List (String × Parsed)}
    (hrows : ∀ other ∈ clause :: clauses, ∀ row ∈ other, ReadAs l row)
    (hsteps : l'.maxSteps = none) (hroom : l.maxDepth < l'.maxDepth)
    (hs : s = ⟨functionText head (clause :: clauses)⟩) (hseam : s.Seam head.utf8ByteSize) :
    ∃ k, Led s.Gap (Stands ⟨s, l'⟩ 1) head.utf8ByteSize (placeValues head.utf8ByteSize clause)
        (head.utf8ByteSize + (clauseText clause).utf8ByteSize) ∧
      Led (s.Token (.symbol .clauseSeparator)) (Led s.Gap (Stands ⟨s, l'⟩ 1))
        (head.utf8ByteSize + (clauseText clause).utf8ByteSize) (spread 1 clauseText placeValues
          (head.utf8ByteSize + (clauseText clause).utf8ByteSize + 1) clauses) k ∧
      s.Token (.symbol .functionEnd) k s.size := by
  generalize hbody : ";".intercalate ((clause :: clauses).map clauseText) = body
  have hwhole : s.Piece 0 ⟨head ++ (body ++ ")")⟩ := by
    rw [← String.append_assoc, ← hbody, ← functionText, ← hs]
    exact s.piece_whole
  have hclose : s.Piece (head.utf8ByteSize + body.utf8ByteSize) ⟨")"⟩ := hwhole.behind.right
  have hsize : s.size = head.utf8ByteSize + body.utf8ByteSize + 1 := by
    rw [hs, functionText, hbody]
    show (head ++ body ++ ")").utf8ByteSize = _
    rw [String.utf8ByteSize_append, String.utf8ByteSize_append]
    rfl
  have hcloses : s.Token (.symbol .functionEnd) (head.utf8ByteSize + body.utf8ByteSize) s.size := by
    rw [hsize]
    exact hclose.token (m := .functionEnd)
  have hmark : s.Leads (s.Token (.symbol .clauseSeparator)) ";" :=
    leads_mark (m := .clauseSeparator) (by decide +kernel) (by decide)
  subst hbody
  obtain ⟨hfirst, hrest, -⟩ := joined_of_piece hmark
    (fun other hother => settled_clause (hrows other hother) hsteps hroom) hwhole.behind.left rfl
    hseam (hclose.seam_before (by decide +kernel)) (hcloses.closes (by decide))
  exact ⟨_, hfirst, hrest, hcloses⟩

/-- Clauses behind what a function may begin with are parsed as a function with their steps. -/
theorem Parse.function_of_clauses (hne : clauses ≠ [])
    (hrows : ∀ clause ∈ clauses, ∀ row ∈ clause, ReadAs l row) (hsteps : l'.maxSteps = none)
    (hroom : l.maxDepth < l'.maxDepth) (hpos : 0 < l.maxDepth)
    (hs : s = ⟨functionText head clauses⟩) (hseam : s.Seam head.utf8ByteSize)
    (hbegin : ∃ x, s.lexeme? 0 = some x ∧ x.kind ∈ [.keyword .fnWord, .symbol .functionStart])
    (hword : Crosses ⟨s, l'⟩ 1 (optional (expect ⟨s, l'⟩ (.keyword .fnWord))) 0 .blank m .blank)
    (hopen : s.Token (.symbol .functionStart) m m₁)
    (hedges : ∀ ns k, Led s.Gap (Stands ⟨s, l'⟩ 1) head.utf8ByteSize ns k → s.Shuts k →
      Crosses ⟨s, l'⟩ 1 (optional (anySignature ⟨s, l'⟩)) m₁ .blank head.utf8ByteSize d) :
    ∃ p span, parse .value s l' = .ok p ∧ p.node =
      (d.withChildren (placeSteps head.utf8ByteSize clauses)).completeFunction.finish span := by
  obtain ⟨clause, clauses, rfl⟩ := List.exists_cons_of_ne_nil hne
  obtain ⟨k, hfirst, hrest, hclose⟩ := Source.led_of_functionText hrows hsteps hroom hs hseam
  have hdeep : 1 < l'.maxDepth := by omega
  have hall := crosses_function hsteps hdeep hword hopen
    (hedges _ _ hfirst (hrest.shuts hclose.shuts)) hfirst hrest hclose
  obtain ⟨x, hx, hk⟩ := hbegin
  exact Parse.ok_of_crosses hsteps (by omega) hx
    ⟨_, List.mem_cons_of_mem _ (List.mem_cons_of_mem _ (List.mem_cons_self ..)), rfl, hk⟩ hall

variable {word : Bool}

/-- Without a signature the edges are those of the steps. -/
theorem Parse.function_unsigned (hne : clauses ≠ [])
    (hrows : ∀ clause ∈ clauses, ∀ row ∈ clause, ReadAs l row) (hsteps : l'.maxSteps = none)
    (hroom : l.maxDepth < l'.maxDepth) (hpos : 0 < l.maxDepth) :
    ∃ p steps, parse .value ⟨functionText (functionHead word) clauses⟩ l' = .ok p ∧
      steps = placeSteps (functionHead word).utf8ByteSize clauses ∧
      p.node.payload = .function steps ∧ p.node.inType = Draft.stepsInput? steps ∧
      p.node.outType = Draft.stepsOutput? steps := by
  generalize hs : (⟨functionText (functionHead word) clauses⟩ : Source) = s
  have hhead : s.Piece 0 ⟨functionHead word⟩ := hs ▸ Source.piece_functionText
  have hseam : s.Seam (functionHead word).utf8ByteSize := by
    rw [← Nat.zero_add (functionHead word).utf8ByteSize]
    exact hhead.seam_behind_append (by decide +kernel)
  obtain ⟨m, hword, hopen, hbegin⟩ := Source.opens_function hhead hsteps
  have hedges (ns : List Node) (k : Nat)
      (hfirst : Led s.Gap (Stands ⟨s, l'⟩ 1) (functionHead word).utf8ByteSize ns k)
      (hshuts : s.Shuts k) : Crosses ⟨s, l'⟩ 1 (optional (anySignature ⟨s, l'⟩))
        (functionHead word).utf8ByteSize .blank (functionHead word).utf8ByteSize .blank :=
    crosses_no_signature hsteps hfirst hshuts
  obtain ⟨p, span, hp, hnode⟩ := Parse.function_of_clauses hne hrows hsteps hroom hpos hs.symm
    hseam hbegin hword hopen hedges
  obtain ⟨hpayload, hinput, houtput⟩ := Draft.finish_completeFunction .blank
    (placeSteps (functionHead word).utf8ByteSize clauses) span rfl
  rw [← hnode] at hpayload hinput houtput
  exact ⟨p, _, hp, rfl, hpayload, hinput, houtput⟩

/-- With a signature they are what it says. -/
theorem Parse.function_signed (hne : clauses ≠ [])
    (hrows : ∀ clause ∈ clauses, ∀ row ∈ clause, ReadAs l row) (hsteps : l'.maxSteps = none)
    (hroom : l.maxDepth < l'.maxDepth) (hpos : 0 < l.maxDepth) {input output : String}
    (hinput : IsName input) (houtput : IsName output)
    (hhead : functionHead word ++ signatureText input output = head) :
    ∃ p, parse .value ⟨functionText head clauses⟩ l' = .ok p ∧
      p.node.payload = .function (placeSteps head.utf8ByteSize clauses) ∧
      p.node.inType = some (.leaf input) ∧ p.node.outType = some (.leaf output) := by
  generalize hs : (⟨functionText head clauses⟩ : Source) = s
  have hwhole : s.Piece 0 ⟨functionHead word ++ signatureText input output⟩ :=
    hs ▸ hhead ▸ Source.piece_functionText
  have hsignature : s.Piece (functionHead word).utf8ByteSize ⟨signatureText input output⟩ :=
    hwhole.behind
  have hsize : (functionHead word).utf8ByteSize + (signatureText input output).utf8ByteSize =
      head.utf8ByteSize := by
    rw [← hhead, String.utf8ByteSize_append]
  have hseam : s.Seam head.utf8ByteSize := by
    rw [← hsize]
    exact hsignature.seam_behind_append (by decide +kernel)
  obtain ⟨m, hword, hopen, hbegin⟩ := Source.opens_function hwhole.left hsteps
  have hedges := crosses_optional
    (Source.crosses_signatureText hsignature hinput houtput hsteps .blank)
  rw [hsize] at hedges
  obtain ⟨p, span, hp, hnode⟩ := Parse.function_of_clauses hne hrows hsteps hroom hpos hs.symm
    hseam hbegin hword hopen fun _ _ _ _ => hedges
  obtain ⟨hpayload, hin, hout⟩ := Draft.finish_completeFunction
    (Draft.blank.withEdges input output) (placeSteps head.utf8ByteSize clauses) span rfl
  rw [← hnode] at hpayload hin hout
  exact ⟨p, hp, hpayload, hin, hout⟩

end

/-! ## The theorem -/

/-- Functions run what is written. Let texts be parsed as values, and let them be written as
clauses in brackets, perhaps behind the word for a function. That is parsed as a function with
one level of nesting more, and its steps are the values of one clause after the other, where
they are written, each clause from its last value to its first. What it takes is what its
first step takes, or that step itself if it does not say, and what it gives is what its last
step is; of a function without steps neither is known. A signature before the clauses changes
nothing about the steps but where they are written, and then its names are what the function
takes and gives. -/
theorem functions_run_what_is_written {D : Nat} (hD : 1 ≤ D)
    {clauses : List (List (String × Parsed))} (hne : clauses ≠ [])
    (hrows : ∀ clause ∈ clauses, ∀ row ∈ clause, ReadAs { maxDepth := D } row) (word : Bool) :
    (∃ p steps,
      parse .value ⟨functionText (functionHead word) clauses⟩ { maxDepth := D + 1 } = .ok p ∧
      steps = placeSteps (functionHead word).utf8ByteSize clauses ∧
      p.node.payload = .function steps ∧
      p.node.inType = steps.head?.map (fun first => first.inType.getD first.selfType) ∧
      p.node.outType = steps.getLast?.map Node.selfType) ∧
    ∀ input output, IsName input → IsName output →
      ∃ p, parse .value ⟨functionText (functionHead word ++ signatureText input output) clauses⟩
          { maxDepth := D + 1 } = .ok p ∧
        p.node.payload = .function
          (placeSteps (functionHead word ++ signatureText input output).utf8ByteSize clauses) ∧
        p.node.inType = some (.leaf input) ∧ p.node.outType = some (.leaf output) := by
  have hroom : ({ maxDepth := D } : Limits).maxDepth < ({ maxDepth := D + 1 } : Limits).maxDepth :=
    Nat.lt_succ_self D
  exact ⟨Parse.function_unsigned hne hrows rfl hroom hD, fun input output hinput houtput =>
    Parse.function_signed hne hrows rfl hroom hD hinput houtput rfl⟩

/-- Three place holders in three clauses, one of which is empty. -/
theorem functions_run_what_is_written_discard :
    (∃ p steps, parse .value ⟨"fn (_ _;;_)"⟩ { maxDepth := 2 } = .ok p ∧
      p.node.payload = .function steps ∧ steps.map Node.span = [⟨6, 7⟩, ⟨4, 5⟩, ⟨9, 10⟩] ∧
      p.node.inType = some (.leaf Claim.discard)) ∧
    ∃ p steps, parse .value ⟨"fn (<A B>_ _;;_)"⟩ { maxDepth := 2 } = .ok p ∧
      p.node.payload = .function steps ∧ steps.map Node.span = [⟨11, 12⟩, ⟨9, 10⟩, ⟨14, 15⟩] ∧
      p.node.inType = some (.leaf "A") := by
  let discard : Parsed := ⟨⟨.leaf Claim.discard, none, none, ⟨0, 1⟩, .discard⟩, []⟩
  have hdiscard : ReadAs { maxDepth := 1 } ("_", discard) := by
    rw [ReadAs]
    cbv
  let clauses : List (List (String × Parsed)) :=
    [[("_", discard), ("_", discard)], [], [("_", discard)]]
  have hrows : ∀ clause ∈ clauses, ∀ row ∈ clause, ReadAs { maxDepth := 1 } row := by
    simpa [clauses] using hdiscard
  obtain ⟨⟨p, steps, hp, rfl, hpayload, hinput, -⟩, hsigned⟩ :=
    functions_run_what_is_written (Nat.le_refl 1) (List.cons_ne_nil _ _) hrows true
  obtain ⟨p', hp', hpayload', hinput', -⟩ :=
    hsigned "A" "B" (by decide +kernel) (by decide +kernel)
  exact ⟨⟨p, _, hp, hpayload, by decide +kernel, hinput⟩,
    p', _, hp', hpayload', by decide +kernel, hinput'⟩

end WeLang
