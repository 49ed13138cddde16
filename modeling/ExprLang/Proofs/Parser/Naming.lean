import ExprLang.Proofs.Parser.Abreast
import ExprLang.Proofs.Parser.Slices
import ExprLang.Proofs.Tree.Rendering

/-!
Names across parses that share an interner. Parsing presents the interner with the names of the source
one by one, as far as it gets, so that trees from before are written as before, and in a tree the symbols
stand for the names of its source.
-/
namespace ExprLang

open Token Grammar

namespace Word

theorem names_append (ws vs : List Word) : names (ws ++ vs) = names ws ++ names vs :=
  List.filterMap_append

@[simp]
theorem names_nil : names [] = [] :=
  rfl

@[simp]
theorem names_fixed {k : Kind} (hk : k ≠ .ident) (ws : List Word) :
    names (fixed k :: ws) = names ws := by
  simp [names_cons, fixed, hk]

@[simp]
theorem names_ident (x : Bytes) (ws : List Word) :
    names (.ident x :: ws) = .ofAscii x :: names ws := by
  simp [names_cons, ident]

@[simp]
theorem names_number (ds : Bytes) (ws : List Word) : names (.number ds :: ws) = names ws := by
  simp [names_cons, number]

end Word

@[simp]
theorem BinOp.kind_ne_ident (op : BinOp) : op.kind ≠ .ident := by
  cases op <;> decide

namespace Grammar

theorem SameText.mono {name name' name₁ name₁' : Symbol → Option Text} {x x' : Symbol}
    (h : ∀ ⦃s t⦄, name s = some t → name₁ s = some t)
    (h' : ∀ ⦃s t⦄, name' s = some t → name₁' s = some t) (hx : SameText name name' x x') :
    SameText name₁ name₁' x x' := by
  have ⟨t, ht, ht'⟩ := hx
  exact ⟨t, h ht, h' ht'⟩

-- Symbols with the same text are written alike.
theorem SameText.sameName {i j : Interner} {x x' : Symbol} (hx : SameText i.lookup? j.lookup? x x') :
    Names.SameName (some i) (some j) x x' := by
  have ⟨t, ht, ht'⟩ := hx
  simp [Names.SameName, Names.name, ht, ht']

variable {word : Token → Word} {name : Symbol → Option Text}

-- The symbols in a tree stand for the names among its words.
theorem LocatedType.symbols {ts : List Token} {type : Option Symbol} {type' : Option Text}
    (h : LocatedType word name ts type type') :
    type.toList.map name = (Word.names (ts.map word)).map Option.some := by
  cases h with
  | none => rfl
  | some hk hw hs hx => simp [hk, hw, hs, hx]

mutual

theorem Located.symbols : Located word name c ts e u →
    e.symbols.map name = (Word.names (ts.map word)).map some
  | .number hw _ => by simp [Expr.symbols, hw]
  | .yes hw | .no hw => by simp [Expr.symbols, hw]
  | .neg _ ho h => by simp [Expr.symbols, ho, h.symbols]
  | .binary _ hl ho hr => by
    simp [Expr.symbols, ho, Word.names_append, hl.symbols, hr.symbols]
  | .grouping ho h hk => by simp [Expr.symbols, ho, hk, Word.names_append, h.symbols]
  | .cond hi hc ho ht hk hl ho' he hk' => by
    simp [Expr.symbols, hi, ho, hk, hl, ho', hk', Word.names_append, hc.symbols, ht.symbols, he.symbols]
  | .block ho h hk => by simp [Expr.symbols, ho, hk, Word.names_append, h.symbols]

theorem LocatedBody.symbols : LocatedBody word name ts ss us →
    (stmtsSymbols ss).map name = (Word.names (ts.map word)).map some
  | .nil => rfl
  | .cons hs _ h => by simp [stmtsSymbols, Word.names_append, hs.symbols, h.symbols]

theorem LocatedStmt.symbols : LocatedStmt word name ts s u →
    s.symbols.map name = (Word.names (ts.map word)).map some
  | .declare hl hw hs hx ht hi hk => by
    simp [Stmt.symbols, hl, hw, hs, hx, hk, Word.names_append, ht.symbols, hi.symbols]
  | .assign hw hs hx ho h hk => by
    simp [Stmt.symbols, hw, hs, hx, ho, hk, Word.names_append, h.symbols]
  | .discard h hk => by simp [Stmt.symbols, hk, Word.names_append, h.symbols]
  | .result h => by simp [Stmt.symbols, h.symbols]

theorem LocatedInit.symbols : LocatedInit word name ts init init' →
    (initSymbols init).map name = (Word.names (ts.map word)).map some
  | .none => rfl
  | .some ho h => by simp [initSymbols, ho, h.symbols]

end
end Grammar

variable {src : Text} {i j : Interner} {d : Int} {e : Program}

-- The names of a source are written as names can be.
theorem exists_allows_of_mem_identifiers {name : Text} (h : name ∈ identifiers src) :
    ∃ bs, Kind.ident.allows bs ∧ name = .ofAscii bs := by
  obtain ⟨w, hw, hn⟩ := List.mem_filterMap.mp h
  split at hn
  case isFalse => cases hn
  case isTrue hk =>
    cases hn
    exact ⟨w.text, hk ▸ Lexer.allows_words _ hw, rfl⟩

theorem isEncodable_of_mem_identifiers {name : Text} (h : name ∈ identifiers src) :
    name.isEncodable := by
  obtain ⟨bs, ha, rfl⟩ := exists_allows_of_mem_identifiers h
  exact Text.isEncodable_of_isAscii (Text.isAscii_ofAscii (Kind.allows_ascii ha))

-- The names of a source are the texts of its name tokens.
theorem text_identifiers (src : Text) :
    ((Lexer.ofText src).scan.tokens.filter (·.kind = .ident)).map (·.span.text src) =
      (identifiers src).map .ok := by
  have ha : ∀ t ∈ (Lexer.ofText src).scan.tokens, t.kind.allows (t.word src.encode.toArray).text :=
    fun t ht => Lexer.allows_words _ (List.mem_map_of_mem ht)
  have hs : (Lexer.ofText src).source = src.encode.toArray := rfl
  rw [identifiers, Lexer.words, hs]
  generalize (Lexer.ofText src).scan.tokens = ts at ha
  induction ts with
  | nil => rfl
  | cons t ts ih =>
    have ih := ih fun u hu => ha u (.tail _ hu)
    have ht : t.span.text src = .ok (.ofAscii (t.word src.encode.toArray).text) :=
      Text.decode_ascii (Kind.allows_ascii (ha t (.head _)))
    have hw : (t.word src.encode.toArray).kind = t.kind := rfl
    rw [List.map_cons, Word.names_cons, hw, List.map_append, ←ih]
    by_cases hk : t.kind = .ident
    case pos => simp [hk, ht]
    case neg => simp [hk]

namespace Parser

-- Whatever comes of it, parsing presents the interner with names of the source.
theorem present_of_parse {r : Except Failure Program} (hi : i.Reachable)
    (h : parse src i d = (r, j)) :
    ∃ xs, xs <+: identifiers src ∧ j = i.present xs ∧ ∀ e, r = .ok e → xs = identifiers src := by
  cases parse_same src hi hi d with
  | inl hp =>
    have ⟨_, _, hp, _⟩ := hp
    cases h.symm.trans hp
    exact ⟨_, List.prefix_rfl, rfl, fun _ _ => rfl⟩
  | inr hp =>
    have ⟨f, xs, hx, hp, _⟩ := hp
    cases h.symm.trans hp
    exact ⟨xs, hx, rfl, nofun⟩

-- All symbols of a tree have texts.
theorem sameText_of_parse (hi : i.Reachable) (h : parse src i d = (.ok e, j)) :
    Expr.Alike Eq (SameText j.issued? j.issued?) e e := by
  cases parse_same src hi hi d with
  | inr hp =>
    have ⟨_, _, _, hp, _⟩ := hp
    cases h.symm.trans hp
  | inl hp =>
    have ⟨_, _, hp, hp', ha⟩ := hp
    cases h.symm.trans hp
    cases h.symm.trans hp'
    exact ha

-- Interners that have all that one had after parsing a tree give its symbols the same texts.
theorem alike_of_parse {k l : Interner} (hi : i.Reachable) (h : parse src i d = (.ok e, j))
    (hk : j.Extends k) (hl : j.Extends l) :
    Expr.Alike Eq (Names.SameName (some k) (some l)) e e := by
  refine (sameText_of_parse hi h).mono (fun _ _ hs => hs) fun x x' hx => SameText.sameName ?_
  exact hx.mono (fun _ _ ht => k.lookup?_of_issued? (hk ht)) fun _ _ ht => l.lookup?_of_issued? (hl ht)

-- The symbols of a tree stand for the names of its source.
theorem symbols_of_parse (hi : i.Reachable) (h : parse src i d = (.ok e, j)) :
    e.symbols.map j.lookup? = (identifiers src).map some := by
  have ⟨ts, u, _, hts, _, _, _, hl⟩ := located_of_parse hi.valid h
  have hw : (Lexer.ofText src).words = ts.map (·.word src.encode.toArray) ++ [.eof] := by
    rw [Lexer.words, hts, List.map_append, List.map_singleton]
    exact congrArg (_ ++ [·]) (Lexer.word_finish src.encode)
  rw [hl.symbols, identifiers, hw, Word.names_append]
  simp [Word.names, Word.eof]

theorem exists_parse_ok (h : (parse src i d).fst.isOk = true) :
    ∃ e j, parse src i d = (.ok e, j) := by
  cases hp : parse src i d with
  | mk r j =>
    cases r with
    | ok e => exact ⟨e, j, rfl⟩
    | error f => simp [hp, Except.isOk, Except.toBool] at h

theorem exists_parse_error (h : (parse src i d).fst.isOk = false) :
    ∃ f j, parse src i d = (.error f, j) := by
  cases hp : parse src i d with
  | mk r j =>
    cases r with
    | ok e => simp [hp, Except.isOk, Except.toBool] at h
    | error f => exact ⟨f, j, rfl⟩

end Parser

-- Whether it succeeds or not, parsing with an interner that is in use only adds to it: all handles keep
-- their texts, trees that were parsed with it before are written as before, and what is new are the names
-- of the source, as far as it was read. In a tree that comes back, the symbols stand for all of them.
theorem parse_shares {r : Except Parser.Failure Program} (hi : i.Reachable)
    (h : parse src i d = (r, j)) :
    (∀ s, i.contains s → ∃ t, i.lookup? s = some t ∧ j.lookup? s = some t) ∧
    (∀ src₀ i₀ d₀ e₀ i₁ later, i₀.Reachable → parse src₀ i₀ d₀ = (.ok e₀, i₁) →
      i = i₁.present later →
      e₀.format (some j) = e₀.format (some i) ∧ e₀.dump (some j) = e₀.dump (some i) ∧
        ∀ spans, e₀.encode ⟨some j, spans⟩ = e₀.encode ⟨some i, spans⟩) ∧
    ∃ xs ys : List Text,
      ((Lexer.ofText src).scan.tokens.filter (·.kind = .ident)).map (·.span.text src) =
        (xs ++ ys).map .ok ∧
      j.texts = i.texts ++ (xs.filter (· ∉ i.texts)).eraseDups ∧
      ∀ e, r = .ok e → ys = [] ∧ e.symbols.map j.lookup? = xs.map some := by
  have ⟨xs, ⟨ys, hx⟩, hj, hall⟩ := Parser.present_of_parse hi h
  have hij : i.Extends j := hj ▸ hi.extends_present xs
  refine ⟨fun s hs => ?_, fun src₀ i₀ d₀ e₀ i₁ later hi₀ h₀ hl => ?_, xs, ys, ?_, ?_, fun e he => ?_⟩
  · have ⟨t, ht⟩ := hi.exists_issued? hs
    exact ⟨t, i.lookup?_of_issued? ht, j.lookup?_of_issued? (hij ht)⟩
  · have ⟨zs, _, hi₁, _⟩ := Parser.present_of_parse hi₀ h₀
    have hr : i₁.Reachable := hi₁ ▸ hi₀.present zs
    have hi₁ : i₁.Extends i := hl ▸ hr.extends_present later
    have ha := Parser.alike_of_parse hi₀ h₀ (hi₁.trans hij) hi₁
    exact ⟨ha.format_eq, ha.dump_eq, fun _ => ha.encode_eq⟩
  · rw [text_identifiers, hx]
  · rw [hj, Interner.texts_present hi fun name hn => ?_]
    exact isEncodable_of_mem_identifiers (hx ▸ List.mem_append_left _ hn)
  · subst he
    have hx' := hall e rfl
    have hys : ys = [] := List.append_cancel_left (hx.trans (hx'.symm.trans (List.append_nil xs).symm))
    exact ⟨hys, hx' ▸ Parser.symbols_of_parse hi h⟩

-- A source that fails after a new name and a known one, behind a tree with the latter.
theorem parse_shares_failed :
    ∃ e₀ i, parse "\x7blet x=1;2\x7d" .empty 1 = (.ok e₀, i) ∧
      ∃ f j, parse "\x7by=1;x=2;3 4" i 1 = (.error f, j) ∧
        (∀ s, i.contains s → ∃ t, i.lookup? s = some t ∧ j.lookup? s = some t) ∧
        e₀.format (some j) = e₀.format (some i) ∧ e₀.dump (some j) = e₀.dump (some i) ∧
        (∀ spans, e₀.encode ⟨some j, spans⟩ = e₀.encode ⟨some i, spans⟩) ∧
        ∃ xs ys : List Text,
          ((Lexer.ofText "\x7by=1;x=2;3 4").scan.tokens.filter (·.kind = .ident)).map
            (·.span.text "\x7by=1;x=2;3 4") = (xs ++ ys).map .ok ∧
          j.texts = i.texts ++ (xs.filter (· ∉ i.texts)).eraseDups := by
  obtain ⟨he, hf⟩ : (parse "\x7blet x=1;2\x7d" .empty 1).fst.isOk = true ∧
      (parse "\x7by=1;x=2;3 4" (parse "\x7blet x=1;2\x7d" .empty 1).snd 1).fst.isOk = false := by
    constructor <;> cbv
  obtain ⟨e₀, i, h₀⟩ := Parser.exists_parse_ok he
  rw [h₀] at hf
  obtain ⟨f, j, h⟩ := Parser.exists_parse_error hf
  obtain ⟨zs, _, hi, _⟩ := Parser.present_of_parse .empty h₀
  have hr : i.Reachable := hi ▸ Interner.Reachable.empty.present zs
  obtain ⟨handles, trees, xs, ys, hx, ht, _⟩ := parse_shares hr h
  obtain ⟨hformat, hdump, hencode⟩ := trees _ _ _ _ _ [] .empty h₀ rfl
  exact ⟨e₀, i, h₀, f, j, h, handles, hformat, hdump, hencode, xs, ys, hx, ht⟩

end ExprLang
