import WeLang.Proofs.Carrying

/-!
# Modules one behind the other

Two modules are written one behind the other, the second without statements of use. Each of
them lies on an island of the whole, so every run makes in the whole what the parses of the
two have made of their statements, and what comes behind the last statement of the first is
the first key of the second, or nothing (`Source.Joint.statements`). The whole is a module of
the chains of the first and of the entries of both. Where no key is there twice it is parsed,
and its table is the union of the two tables; otherwise what is wrong is the first key of the
second that the first has as well (`modules_join`).
-/

namespace WeLang

variable {rows rows' : List (Lexeme × Node)} {key : String}

/-! ## Tables of entries -/

namespace Table

variable {α : Type}

theorem get?_ofRows (rows : List (String × α)) (name : String) :
    (ofRows rows).get? name = rows.reverse.lookup name := by
  induction rows using List.reverseRecOn with
  | nil => rfl
  | append_singleton rows row ih =>
      rw [ofRows_concat, List.reverse_append, List.reverse_singleton, List.singleton_append]
      by_cases hname : name = row.1
      · subst hname
        rw [get?_insert_self, List.lookup_cons, beq_self_eq_true]
      · rw [get?_insert_of_ne hname, ih, List.lookup_cons, beq_false_of_ne hname]

theorem mem_names {table : Table α} {name : String} :
    name ∈ table.names ↔ (table.get? name).isSome = true := by
  rw [get?, List.lookup_isSome_iff, names, List.mem_map]
  simp only [beq_iff_eq, @eq_comm _ name]

theorem mem_names_ofRows {rows : List (String × α)} {name : String} :
    name ∈ (ofRows rows).names ↔ name ∈ rows.map Prod.fst := by
  rw [mem_names, get?_ofRows, List.lookup_isSome_iff]
  simp only [List.mem_reverse, List.mem_map, beq_iff_eq, @eq_comm _ name]

/-- In a table of two lists of rows the second comes first. -/
theorem get?_ofKeyed_append (rows rows' : List (Lexeme × Node)) (key : String) :
    (ofKeyed (rows ++ rows')).get? key =
      ((ofKeyed rows').get? key).or ((ofKeyed rows).get? key) := by
  simp only [ofKeyed, get?_ofRows, List.map_append, List.reverse_append, List.lookup_append]

theorem mem_names_ofKeyed : key ∈ (ofKeyed rows).names ↔ key ∈ rows.map (·.1.text) := by
  rw [ofKeyed, mem_names_ofRows, List.map_map]
  rfl

theorem ofKeyed_shift (d : Nat) (rows : List (Lexeme × Node)) :
    ofKeyed (rows.map (Source.shiftRow d)) =
      (ofKeyed rows).mapValues (Node.relocate (Span.shift d)) := by
  rw [ofKeyed, ofKeyed, mapValues_ofRows, List.map_map, List.map_map]
  rfl

/-- The union of two tables without a common key, the second of which has been moved. -/
theorem get?_ofKeyed_join (d : Nat)
    (hapart : ∀ key ∈ (ofKeyed rows').names, key ∉ (ofKeyed rows).names) (key : String) :
    (ofKeyed (rows ++ rows'.map (Source.shiftRow d))).get? key =
      ((ofKeyed rows).get? key).or
        (((ofKeyed rows').get? key).map (Node.relocate (Span.shift d))) := by
  rw [get?_ofKeyed_append, ofKeyed_shift, get?_mapValues]
  cases hright : (ofKeyed rows').get? key with
  | none => simp
  | some n =>
      have hleft : (ofKeyed rows).get? key = none := by
        have hno := hapart key (mem_names.2 (by rw [hright]; rfl))
        rwa [mem_names, Option.not_isSome_iff_eq_none] at hno
      rw [hleft]
      rfl

/-- Of the rows of two tables with a common key there is a first in the second that has one. -/
theorem exists_first_common
    (h : ∃ key ∈ (ofKeyed rows').names, key ∈ (ofKeyed rows).names) :
    ∃ pre x n post, rows' = pre ++ (x, n) :: post ∧ x.text ∈ (ofKeyed rows).names ∧
      ∀ row ∈ pre, row.1.text ∉ (ofKeyed rows).names := by
  obtain ⟨key, hkey', hkey⟩ := h
  rw [mem_names_ofKeyed, List.mem_map] at hkey'
  obtain ⟨row, hrow, rfl⟩ := hkey'
  obtain ⟨⟨x, n⟩, hfirst⟩ : ∃ found,
      rows'.find? (fun row => row.1.text ∈ (ofKeyed rows).names) = some found :=
    Option.isSome_iff_exists.1 (List.find?_isSome.2 ⟨row, hrow, decide_eq_true hkey⟩)
  obtain ⟨hx, pre, post, hsplit, hpre⟩ := List.find?_eq_some_iff_append.1 hfirst
  exact ⟨pre, x, n, post, hsplit, of_decide_eq_true hx, fun row hrow => by
    simpa using hpre row hrow⟩

end Table

/-! ## Statements -/

open Matcher

namespace Source

variable {s t r : Source} {d : Nat} {l : Limits} {p q : Parsed} {entries : Table Node}

theorem shiftRow_zero : shiftRow 0 = id := by
  funext row
  simp [shiftRow, Lexeme.shift_zero, Span.shift_zero, Node.relocate_id]

theorem map_text_shift (d : Nat) (rows : List (Lexeme × Node)) :
    (rows.map (shiftRow d)).map (·.1.text) = rows.map (·.1.text) := by
  rw [List.map_map]
  rfl

/-- Rows with keys of their own, behind rows that have none of these. -/
theorem nodup_keys_join (d : Nat) (h : (rows.map (·.1.text)).Nodup)
    (h' : (rows'.map (·.1.text)).Nodup)
    (hapart : ∀ row ∈ rows', row.1.text ∉ (Table.ofKeyed rows).names) :
    ((rows ++ rows'.map (shiftRow d)).map (·.1.text)).Nodup := by
  rw [List.map_append, map_text_shift]
  refine List.nodup_append'.2 ⟨h, h', fun key hkey hkey' => ?_⟩
  obtain ⟨row, hrow, rfl⟩ := List.mem_map.1 hkey'
  exact hapart row hrow (Table.mem_names_ofKeyed.2 hkey)

/-- The statements of two modules, the second of which uses nothing, are statements of the
whole, and every run makes them. -/
theorem Joint.statements (h : s.Joint t d r) (hsteps : l.maxSteps = none)
    (ht : parse .module t l = .ok p) (hr : parse .module r l = .ok q)
    (hnone : q.node.payload = .module [] entries) :
    ∃ paths rows rows' m k k', p.node.payload = .module paths (Table.ofKeyed rows) ∧
      entries = Table.ofKeyed rows' ∧ (rows.map (·.1.text)).Nodup ∧
      (rows'.map (·.1.text)).Nodup ∧ r.Entries 0 (rows'.map Prod.fst) k' ∧ r.isSpent k' = true ∧
      s.Uses (Makes ⟨s, l⟩ 1 (anyChain ⟨s, l⟩)) 0 paths m ∧
      s.Rows (Makes ⟨s, l⟩ 1 (anyValue ⟨s, l⟩)) m (rows ++ rows'.map (shiftRow d)) k ∧
      s.isSpent k = true := by
  obtain ⟨paths, rows, m, o, huses, hrows, hspent, hkeys, hpayload⟩ := Parse.statements_of_ok ht
  obtain ⟨paths', rows', m', o', huses', hrows', hspent', hkeys', hpayload'⟩ :=
    Parse.statements_of_ok hr
  obtain ⟨rfl, rfl⟩ : [] = paths' ∧ entries = Table.ofKeyed rows' := by
    rw [hnone] at hpayload'
    simpa using hpayload'
  obtain rfl := huses'.eq_of_nil
  have hentries := hrows'.entries fun _ _ _ hvalue => hvalue.path_of_value
  -- Behind the second nothing is left, so behind the first is the first key of the second.
  have hend := h.isSpent (hentries.le_size (Nat.zero_le _)) hspent'
  have hbehind : s.Closes (d + r.size) := by
    rw [h.whole]
    exact closes_of_isSpent (isSpent_size s)
  have hright := h.right.carries_rows hsteps hbehind hrows' hspent'
  have hbetween : s.Closes (0 + t.size) := by
    rw [Nat.zero_add]
    exact (h.right.closes hbehind (Nat.zero_le _) (hrows'.rests hspent')).congr h.between.symm
  have hleft := h.left.carries_rows hsteps hbetween hrows hspent
  have hchains := h.left.carries_uses hsteps hbetween huses (hrows.rests hspent)
  rw [shiftRow_zero, List.map_id, Nat.zero_add, Nat.zero_add] at hleft
  rw [Nat.zero_add, Nat.zero_add] at hchains
  have hsize := (hrows.entries fun _ _ _ hvalue => hvalue.path_of_value).le_size
    (huses.le_size (fun _ _ _ hchain => hchain.path_of_chain) (Nat.zero_le _))
  have hseam := h.left.toPiece.skipBlanks_of_isSpent hsize hspent
  rw [Nat.zero_add, Nat.zero_add, h.between] at hseam
  obtain ⟨k, hrest, hk⟩ := hright.congr hseam.symm
  refine ⟨paths, rows, rows', m, k, o', hpayload, rfl, hkeys, hkeys', hentries, hspent', hchains,
    hleft.append hrest, ?_⟩
  rwa [Source.isSpent, hk]

end Source

/-! ## The theorem -/

/-- A module requires of each key the type of what has this key. -/
theorem Parse.requirement?_of_module {s : Source} {l : Limits} {p : Parsed}
    {usings : List (List String)} {entries : Table Node} (h : parse .module s l = .ok p)
    (hpayload : p.node.payload = .module usings entries) :
    p.node.selfType.claim = Claim.module ∧
      ∀ key, p.node.selfType.requirement? key = (entries.get? key).map Node.selfType := by
  have hself : p.node ∈ p.node.subtree := by
    rw [Node.subtree_eq]
    exact List.mem_cons_self ..
  have hdictates := (typed_of_parse h hself).selfType
  rw [hpayload] at hdictates
  exact ⟨hdictates.1, hdictates.2.2.2⟩

/-- The warnings of two modules one behind the other are those of the first and then those of
the second. -/
theorem Source.Joint.warnings {s t r : Source} {d : Nat} {l : Limits} {pt pr p : Parsed}
    (h : s.Joint t d r) (ht : parse .module t l = .ok pt) (hr : parse .module r l = .ok pr)
    (hs : parse .module s l = .ok p) :
    p.warnings = pt.warnings ++ pr.warnings.map (KeywordCollision.shift d) := by
  obtain ⟨xs, hxs, hleft⟩ := Parse.warnings_of_ok ht
  obtain ⟨ys, hys, hright⟩ := Parse.warnings_of_ok hr
  obtain ⟨zs, hzs, hwhole⟩ := Parse.warnings_of_ok hs
  obtain rfl := hzs.unique (h.reads hxs hys)
  obtain ⟨o, hxpath, -⟩ := hxs
  obtain ⟨o', hypath, -⟩ := hys
  rw [hwhole, hleft, hright, Source.collisionsOf_append, h.right.collisionsOf hypath]
  have hxs := h.left.collisionsOf hxpath
  rw [Lexeme.shift_zero, KeywordCollision.shift_zero, List.map_id, List.map_id] at hxs
  rw [hxs]

/-- Modules compose. Of two sources that are modules, let the second use nothing. If no key of
the second is a key of the first, the two of them with a line feed between are a module: it
uses what the first uses, its entries are those of the first and those of the second, where
these stand now, it requires what both require, and its warnings are those of the first and
then those of the second. Otherwise what is wrong with the whole is the first key of the
second, in the order in which they stand there, that is a key of the first. -/
theorem modules_join {a b : String} {l : Limits} {pa pb : Parsed} {entries : Table Node}
    (hsteps : l.maxSteps = none) (ha : parse .module ⟨a⟩ l = .ok pa)
    (hb : parse .module ⟨b⟩ l = .ok pb) (hnone : pb.node.payload = .module [] entries) :
    ∃ (usings : List (List String)) (table : Table Node) (keys : List Lexeme) (stop : Nat),
      pa.node.payload = .module usings table ∧
      Source.Entries ⟨b⟩ 0 keys stop ∧ Source.isSpent ⟨b⟩ stop = true ∧
      (∀ key, key ∈ entries.names ↔ key ∈ keys.map Lexeme.text) ∧
      ((∀ key ∈ entries.names, key ∉ table.names) →
        ∃ (p : Parsed) (whole : Table Node), parse .module ⟨a ++ "\n" ++ b⟩ l = .ok p ∧
          p.node.payload = .module usings whole ∧
          (∀ key, whole.get? key = (table.get? key).or
            ((entries.get? key).map (Node.relocate (Span.shift (a.utf8ByteSize + 1))))) ∧
          p.node.selfType.claim = Claim.module ∧
          (∀ key, p.node.selfType.requirement? key =
            (pa.node.selfType.requirement? key).or (pb.node.selfType.requirement? key)) ∧
          p.warnings =
            pa.warnings ++ pb.warnings.map (KeywordCollision.shift (a.utf8ByteSize + 1))) ∧
      ((∃ key ∈ entries.names, key ∈ table.names) →
        ∃ pre x post, keys = pre ++ x :: post ∧ x.text ∈ table.names ∧
          (∀ y ∈ pre, y.text ∉ table.names) ∧
          parse .module ⟨a ++ "\n" ++ b⟩ l =
            .error (({ cause := .duplicateKey x.text, span := x.span.shift (a.utf8ByteSize + 1) } :
              ParseError).locate ⟨a ++ "\n" ++ b⟩)) := by
  have hjoint : Source.Joint ⟨a ++ "\n" ++ b⟩ ⟨a⟩ (a ++ "\n").utf8ByteSize ⟨b⟩ :=
    Source.joint_of_blank (by decide +kernel) (by decide)
  have hd : (a ++ "\n").utf8ByteSize = a.utf8ByteSize + 1 := String.utf8ByteSize_append
  rw [hd] at hjoint
  obtain ⟨paths, rows, rows', m, k, k', hpayload, rfl, hnodup, hnodup', hkeys, hspent, huses, hrows,
    hend⟩ := hjoint.statements hsteps ha hb hnone
  have hroom := Parse.room_of_ok ha
  refine ⟨paths, Table.ofKeyed rows, rows'.map Prod.fst, k', hpayload, hkeys, hspent,
    fun key => ?_, fun hapart => ?_, fun hcommon => ?_⟩
  · rw [Table.mem_names_ofKeyed, List.map_map]
    rfl
  · have hall := Source.nodup_keys_join (a.utf8ByteSize + 1) hnodup hnodup' fun row hrow =>
      hapart _ (Table.mem_names_ofKeyed.2 (List.mem_map_of_mem hrow))
    obtain ⟨p, hp, hwhole⟩ := Parse.ok_of_statements hsteps hroom huses hrows hend hall
    have hunion := Table.get?_ofKeyed_join (a.utf8ByteSize + 1) hapart
    obtain ⟨hclaim, hrequires⟩ := Parse.requirement?_of_module hp hwhole
    refine ⟨p, _, hp, hwhole, hunion, hclaim, fun key => ?_, hjoint.warnings ha hb hp⟩
    rw [hrequires, hunion, (Parse.requirement?_of_module ha hpayload).2,
      (Parse.requirement?_of_module hb hnone).2]
    cases (Table.ofKeyed rows).get? key <;> simp [Function.comp_def]
  · obtain ⟨pre, x, n, post, rfl, hold, hfresh⟩ := Table.exists_first_common hcommon
    rw [List.map_append, List.map_cons, ← List.append_assoc] at hrows
    rw [List.map_append] at hnodup'
    have hbefore := Source.nodup_keys_join (a.utf8ByteSize + 1) hnodup
      (List.nodup_append'.1 hnodup').1 hfresh
    refine ⟨pre.map Prod.fst, x, post.map Prod.fst, by simp, hold, ?_, ?_⟩
    · exact List.forall_mem_map.2 hfresh
    · refine Parse.error_of_statements hsteps hroom huses hrows hend hbefore ?_
      rw [List.map_append]
      exact List.mem_append_left _ (Table.mem_names_ofKeyed.1 hold)

/-- One place holder behind another, under another key and under the same. -/
theorem modules_join_discard :
    (∃ p whole, parse .module ⟨"a:_" ++ "\n" ++ "b:_"⟩ = .ok p ∧
      p.node.payload = .module [] whole ∧ p.warnings = [] ∧
        (Table.get? whole "a").map Node.span = some ⟨2, 3⟩ ∧
          (Table.get? whole "b").map Node.span = some ⟨6, 7⟩) ∧
    parse .module ⟨"a:_" ++ "\n" ++ "a:_"⟩ =
      .error { cause := .duplicateKey "a", span := ⟨4, 5⟩, location := some ⟨2, 1⟩ } := by
  let discard : Node := ⟨.leaf Claim.discard, none, none, ⟨2, 3⟩, .discard⟩
  let root (key : String) : Node := ⟨⟨Claim.module, [(key, .leaf Claim.discard)]⟩, none, none,
    ⟨0, 3⟩, .module [] [(key, discard)]⟩
  have ha : parse .module ⟨"a:_"⟩ = .ok ⟨root "a", []⟩ := by cbv
  have hb : parse .module ⟨"b:_"⟩ = .ok ⟨root "b", []⟩ := by cbv
  have hnone (key : String) : (root key).payload = .module [] [(key, discard)] := rfl
  refine ⟨?_, ?_⟩
  · obtain ⟨usings, table, -, -, hpayload, -, -, -, hjoin, -⟩ :=
      modules_join rfl ha hb (hnone "b")
    obtain ⟨rfl, rfl⟩ := Payload.module.inj hpayload
    obtain ⟨p, whole, hp, hwhole, hunion, -, -, hwarnings⟩ := hjoin (by decide)
    refine ⟨p, whole, hp, hwhole, hwarnings, ?_, ?_⟩
    · rw [hunion]
      rfl
    · rw [hunion]
      rfl
  · obtain ⟨usings, table, keys, stop, hpayload, hentries, -, hkeys, -, hclash⟩ :=
      modules_join rfl ha ha (hnone "a")
    obtain ⟨rfl, rfl⟩ := Payload.module.inj hpayload
    obtain ⟨pre, x, post, rfl, hold, hfresh, herror⟩ := hclash ⟨"a", by decide, by decide⟩
    -- All keys are this one, so it is the first key of the second.
    obtain rfl : pre = [] := List.eq_nil_iff_forall_not_mem.2 fun y hy =>
      hfresh y hy ((hkeys y.text).2 (List.mem_map_of_mem (List.mem_append_left _ hy)))
    have hfirst : Source.lexeme? ⟨"a:_"⟩ 0 = some ⟨.identifier, "a", ⟨0, 1⟩⟩ := by cbv
    cases hentries with
    | cons key _ _ _ =>
        obtain rfl := Option.some.inj (key.here.symm.trans hfirst)
        rw [herror]
        cbv

end WeLang
