import LambdaCalculus.Proofs.Grammar

/-! # Parsing follows the grammar

The reader accepts a text without diagnostics iff the text is an expression of the grammar, and its
tree is that of the derivation.  One direction runs the reader along a derivation; the other
maintains, beside the stack of the reader, the phrases read into it.
-/
namespace LambdaCalculus

namespace Expr

open Grammar

namespace Level

@[simp] theorem add_opened (l : Level) (e : Expr) : (l.add e).opened = l.opened := rfl

@[simp] theorem add_terms (l : Level) (e : Expr) : (l.add e).terms = l.terms.apply e := rfl

@[simp] theorem add_hasTerm (l : Level) (e : Expr) : (l.add e).hasTerm = true := rfl

def addAll (l : Level) (es : List Expr) : Level := es.foldl add l

theorem addAll_opened (l : Level) (es : List Expr) : (l.addAll es).opened = l.opened := by
  induction es generalizing l with
  | nil => rfl
  | cons e es ih => exact ih (l.add e)

theorem addAll_terms (l : Level) (es : List Expr) :
    (l.addAll es).terms = es.foldl .apply l.terms := by
  induction es generalizing l with
  | nil => rfl
  | cons e es ih => exact ih (l.add e)

theorem addAll_hasTerm (l : Level) {es : List Expr} (h : es ≠ []) :
    (l.addAll es).hasTerm = true := by
  cases es using List.reverseRecOn with
  | nil => exact absurd rfl h
  | append_singleton es e => rw [addAll, List.foldl_append]; rfl

def around (opened : List Opened) (body : Expr) : Expr := close ⟨opened, body, true⟩

theorem close_eq (l : Level) : l.close = around l.opened l.terms := rfl

end Level

namespace Reader

/-- Reading `ts` leads from `r` to `r'` without diagnostics. -/
def Passes (r : Reader) (ts : List Token) (r' : Reader) : Prop :=
  transducer.reach r ts = r' ∧ transducer.output r ts = []

namespace Passes

variable {r r' r'' : Reader} {t : Token} {ts us : List Token}

theorem refl (r : Reader) : r.Passes [] r := ⟨rfl, rfl⟩

theorem append (h : r.Passes ts r') (h' : r'.Passes us r'') : r.Passes (ts ++ us) r'' := by
  obtain ⟨rfl, hts⟩ := h
  obtain ⟨rfl, hus⟩ := h'
  exact ⟨transducer.reach_append r ts us, by rw [Transducer.output_append, hts, hus]; rfl⟩

theorem cons (r' : Reader) (hnext : r.next t = r') (hemit : r.emit t = [])
    (h : r'.Passes ts r'') : r.Passes (t :: ts) r'' := by
  obtain ⟨rfl, hts⟩ := h
  subst hnext
  refine ⟨rfl, ?_⟩
  rw [Transducer.output_cons]
  exact List.append_eq_nil_iff.mpr ⟨hemit, hts⟩

theorem step (hnext : r.next t = r') (hemit : r.emit t = []) : r.Passes [t] r' :=
  cons r' hnext hemit (refl r')

end Passes

/-! ## Along a derivation -/

section Derivation

variable {l : Level} {groups : List (Token × Level)}

theorem passes_identifier {t : Token} (h : t.kind = .identifier) :
    (Reader.mk l groups .none).Passes [t] ⟨l.add (.var t), groups, .none⟩ :=
  .step (by simp [next, accept, h]) (by simp [emit, complain, h])

theorem passes_header {b p d : Token} {ts : List Token} {r : Reader} (hb : b.kind = .binder)
    (hp : p.kind = .identifier) (hd : d.kind = .bodyDelimiter)
    (h : (Reader.mk (l.enter b (some p)) groups .none).Passes ts r) :
    (Reader.mk l groups .none).Passes (b :: p :: d :: ts) r := by
  refine .cons ⟨l, groups, .binder b⟩ ?_ ?_ ?_
  · simp [next, accept, hb]
  · simp [emit, complain, hb]
  refine .cons ⟨l, groups, .parameter b (some p)⟩ ?_ ?_ ?_
  · simp [next, hp]
  · simp [emit, hp]
  refine .cons ⟨l.enter b (some p), groups, .none⟩ ?_ ?_ h
  · simp [next, enter, hd]
  · simp [emit, hd]

/-- A group is read as its inner expression, which is one term of the outer level. -/
theorem passes_group {o c : Token} {ts : List Token} {inner : Level} (ho : o.kind = .groupOpen)
    (hc : c.kind = .groupClose) (hterm : inner.hasTerm = true)
    (h : (Reader.mk .start ((o, l) :: groups) .none).Passes ts ⟨inner, (o, l) :: groups, .none⟩) :
    (Reader.mk l groups .none).Passes (o :: ts ++ [c]) ⟨l.add inner.close, groups, .none⟩ := by
  refine .cons ⟨.start, (o, l) :: groups, .none⟩ ?_ ?_ (h.append (.step ?_ ?_))
  · simp [next, accept, ho]
  · simp [emit, complain, ho]
  · simp [next, accept, hc]
  · simp [emit, complain, hc, hterm]

theorem passes_atoms {atoms : List Phrase}
    (h : ∀ a ∈ atoms, ∀ l : Level,
      (Reader.mk l groups .none).Passes a.1 ⟨l.add a.2, groups, .none⟩) (l : Level) :
    (Reader.mk l groups .none).Passes (tokensOf atoms)
      ⟨l.addAll (treesOf atoms), groups, .none⟩ := by
  induction atoms generalizing l with
  | nil => exact .refl _
  | cons a atoms ih =>
    have ha := h a List.mem_cons_self l
    have hrest := ih (fun b hb => h b (List.mem_cons_of_mem a hb)) (l.add a.2)
    exact ha.append hrest

end Derivation

/-- The effect of a phrase of each part on the level it starts on.  An abstraction does not return
to that level, since its body extends to the end of the enclosing expression. -/
def Follows : Part → List Token → Expr → Prop
  | .atom, ts, e => ∀ l groups,
    (Reader.mk l groups .none).Passes ts ⟨l.add e, groups, .none⟩
  | .abstraction, ts, e => ∀ l groups, ∃ l' : Level,
    (Reader.mk l groups .none).Passes ts ⟨l', groups, .none⟩ ∧
      l'.hasTerm = true ∧ l'.close = (l.add e).close
  | .expression, ts, e => ∀ opened groups, ∃ l' : Level,
    (Reader.mk ⟨opened, .empty, false⟩ groups .none).Passes ts ⟨l', groups, .none⟩ ∧
      l'.hasTerm = true ∧ l'.close = Level.around opened e

/-- The reader follows every derivation. -/
theorem follows_of_derives {part : Part} {ts : List Token} {e : Expr} (h : Derives part ts e) :
    Follows part ts e := by
  induction h with
  | identifier ht => exact fun l groups => passes_identifier ht
  | group ho _ hc ih =>
    intro l groups
    obtain ⟨inner, hpass, hterm, hclose⟩ := ih [] ((_, l) :: groups)
    have hgroup := passes_group ho hc hterm hpass
    rwa [hclose] at hgroup
  | abstraction hb hp hd _ ih =>
    intro l groups
    obtain ⟨l', hpass, hterm, hclose⟩ := ih (⟨l.terms, _, some _⟩ :: l.opened) groups
    exact ⟨l', passes_header hb hp hd hpass, hterm, hclose⟩
  | atoms hne hatoms ih =>
    intro opened groups
    refine ⟨_, passes_atoms (fun a ha l => ih a ha l groups) _, ?_, ?_⟩
    · exact Level.addAll_hasTerm _ (by simpa [treesOf] using hne)
    · rw [Level.close_eq, Level.addAll_opened, Level.addAll_terms,
        foldl_apply (empty_notMem_treesOf hatoms)]
  | atomsThen hatoms _ ihs ih =>
    intro opened groups
    have hpass := passes_atoms (fun a ha l => ihs a ha l groups) ⟨opened, .empty, false⟩
    obtain ⟨l', hpass', hterm, hclose⟩ := ih _ groups
    refine ⟨l', hpass.append hpass', hterm, ?_⟩
    have hempty := empty_notMem_treesOf hatoms
    rw [hclose, Level.close_eq, Level.add_opened, Level.addAll_opened, chain_concat hempty,
      ← foldl_apply hempty]
    simp only [Level.add, Level.addAll_terms]

/-! ## Phrases that have been read -/

end Reader

/-- The tokens read into a level. -/
inductive Level.Covers : Level → List Token → Prop where
  | start : Covers .start []
  | add {l : Level} {ts us : List Token} {e : Expr} :
      Covers l ts → Derives .atom us e → Covers (l.add e) (ts ++ us)
  | enter {l : Level} {ts : List Token} {b p d : Token} :
      Covers l ts → b.kind = .binder → p.kind = .identifier → d.kind = .bodyDelimiter →
      Covers (l.enter b (some p)) (ts ++ [b, p, d])

/-- The tokens of a level end with the atoms of its innermost body.  Any expression in place of that
body completes the tokens before it to an expression. -/
theorem Level.Covers.exists_atoms {l : Level} {ts : List Token} (h : l.Covers ts) :
    ∃ before atoms, ts = before ++ tokensOf atoms ∧
      (∀ a ∈ atoms, Derives .atom a.1 a.2) ∧
      l.terms = chain (treesOf atoms) ∧ (l.hasTerm = true → atoms ≠ []) ∧
      ∀ us e, Derives .expression us e →
        Derives .expression (before ++ us) (around l.opened e) := by
  induction h with
  | start => exact ⟨[], [], rfl, by simp, rfl, by simp [Level.start], fun us e h => h⟩
  | @add l ts us e _ hatom ih =>
    obtain ⟨before, atoms, rfl, hatoms, hterms, _, hbody⟩ := ih
    refine ⟨before, atoms ++ [(us, e)], by simp, ?_, ?_, by simp, hbody⟩
    · intro a ha
      rcases List.mem_append.mp ha with ha | ha
      · exact hatoms a ha
      · exact List.mem_singleton.mp ha ▸ hatom
    · have hconcat := chain_concat (empty_notMem_treesOf hatoms) e
      rw [← hterms] at hconcat
      simpa [treesOf] using hconcat.symm
  | @enter l ts b p d _ hb hp hd ih =>
    obtain ⟨before, atoms, rfl, hatoms, hterms, _, hbody⟩ := ih
    refine ⟨before ++ tokensOf atoms ++ [b, p, d], [], by simp, by simp, rfl,
      by simp [Level.enter], ?_⟩
    intro us body hus
    have hwhole := hbody _ _ (.atomsThen hatoms (.abstraction hb hp hd hus))
    rw [chain_concat (empty_notMem_treesOf hatoms), ← hterms] at hwhole
    simpa [Level.enter, around, close] using hwhole

theorem Level.Covers.derives {l : Level} {ts : List Token} (h : l.Covers ts)
    (hterm : l.hasTerm = true) : Derives .expression ts l.close := by
  obtain ⟨before, atoms, rfl, hatoms, hterms, hne, hbody⟩ := h.exists_atoms
  rw [Level.close_eq, hterms]
  exact hbody _ _ (.atoms (hne hterm) hatoms)

namespace Reader

/-- The tokens read before the innermost open group, including its opening parenthesis. -/
inductive GroupsCover : List (Token × Level) → List Token → Prop where
  | nil : GroupsCover [] []
  | cons {o : Token} {l : Level} {groups : List (Token × Level)} {ts us : List Token} :
      GroupsCover groups ts → l.Covers us → o.kind = .groupOpen →
      GroupsCover ((o, l) :: groups) (ts ++ us ++ [o])

inductive HeaderCovers : Header → List Token → Prop where
  | none : HeaderCovers .none []
  | binder {b : Token} : b.kind = .binder → HeaderCovers (.binder b) [b]
  | parameter {b p : Token} :
      b.kind = .binder → p.kind = .identifier → HeaderCovers (.parameter b (some p)) [b, p]

/-- The tokens read into a reader: those of the enclosing groups, of the level, and of the header.
-/
inductive Covers : Reader → List Token → Prop where
  | mk {level : Level} {groups : List (Token × Level)} {header : Header}
      {outer inner head : List Token} :
      GroupsCover groups outer → level.Covers inner → HeaderCovers header head →
      Covers ⟨level, groups, header⟩ (outer ++ inner ++ head)

theorem start_covers : start.Covers [] := .mk .nil .start .none

section Step

variable {l : Level} {groups : List (Token × Level)} {t : Token} {outer inner : List Token}

/-- Outside of headers, a token without a diagnostic is read into the reader. -/
theorem covers_accept (hgroups : GroupsCover groups outer) (hlevel : l.Covers inner)
    (hquiet : (Reader.mk l groups .none).complain t = []) :
    ((Reader.mk l groups .none).accept t).Covers (outer ++ inner ++ [t]) := by
  cases hk : t.kind with
  | identifier =>
    have hlevel' := hlevel.add (.identifier hk)
    simpa [accept, hk] using Covers.mk hgroups hlevel' .none
  | binder => simpa [accept, hk] using Covers.mk hgroups hlevel (.binder hk)
  | groupOpen => simpa [accept, hk] using Covers.mk (.cons hgroups hlevel hk) .start .none
  | groupClose =>
    cases hgroups with
    | nil => simp [complain, hk] at hquiet
    | cons hgroups hlevel' ho =>
      have hterm : l.hasTerm = true := by simpa [complain, hk] using hquiet
      have hgroup : Derives .atom _ l.close := .group ho (hlevel.derives hterm) hk
      simpa [accept, hk] using Covers.mk hgroups (hlevel'.add hgroup) .none
  | bodyDelimiter => simp [complain, hk] at hquiet
  | endOfFile => simp [complain, hk] at hquiet

end Step

/-- A token without a diagnostic is read into the reader. -/
theorem Covers.next {r : Reader} {ts : List Token} {t : Token} (h : r.Covers ts)
    (hquiet : r.emit t = []) : (r.next t).Covers (ts ++ [t]) := by
  obtain ⟨hgroups, hlevel, hheader⟩ := h
  cases hheader with
  | none => simpa [Reader.next] using covers_accept hgroups hlevel hquiet
  | @binder b hb =>
    -- Only a parameter may come here: any other token is one too early.
    have hk : t.kind = .identifier := by
      cases hk : t.kind <;> simp [emit, hk] at hquiet ⊢
    simpa [Reader.next, hk] using Covers.mk hgroups hlevel (.parameter hb hk)
  | @parameter b p hb hp =>
    have hk : t.kind = .bodyDelimiter := by
      cases hk : t.kind <;> simp [emit, hk] at hquiet ⊢
    simpa [Reader.next, Reader.enter, hk] using Covers.mk hgroups (hlevel.enter hb hp hk) .none

theorem Covers.reach {r : Reader} {ts us : List Token} (h : r.Covers ts)
    (hquiet : transducer.output r us = []) : (transducer.reach r us).Covers (ts ++ us) := by
  induction us generalizing r ts with
  | nil => simpa using h
  | cons u us ih =>
    rw [Transducer.output_cons, List.append_eq_nil_iff] at hquiet
    have hus := ih (h.next hquiet.1) hquiet.2
    rw [List.append_assoc] at hus
    exact hus

/-- If the end of the text has no diagnostic, an expression has been read. -/
theorem Covers.derives {r : Reader} {ts : List Token} {eof : Token} (h : r.Covers ts)
    (hquiet : r.atEnd eof = []) : Derives .expression ts r.finish := by
  obtain @⟨level, groups, header, outer, inner, head, hgroups, hlevel, hheader⟩ := h
  cases hheader with
  | binder => simp [atEnd, headerAtEnd] at hquiet
  | parameter => simp [atEnd, headerAtEnd] at hquiet
  | none =>
    cases hgroups with
    | cons => simp [atEnd, headerAtEnd, settle, groupsAtEnd] at hquiet
    | nil =>
      have hterm : level.hasTerm = true := by
        cases hlast : level.hasTerm with
        | true => rfl
        | false => simp [atEnd, headerAtEnd, settle, groupsAtEnd, hlast] at hquiet
      simpa [finish, settle] using hlevel.derives hterm

end Reader

/-- Tokens without diagnostics are an expression with the tree read. -/
theorem derives_ofTokens {s : Token.Scanned} (h : (ofTokens s).diagnostics = []) :
    Derives .expression s.tokens (ofTokens s).expr := by
  obtain ⟨hquiet, hend⟩ := List.append_eq_nil_iff.mp h
  have hcovers := Reader.start_covers.reach hquiet
  exact hcovers.derives hend

theorem ofTokens_of_derives {s : Token.Scanned} {e : Expr} (h : Derives .expression s.tokens e) :
    ofTokens s = ⟨e, []⟩ := by
  obtain ⟨l, ⟨hreach, hquiet⟩, hterm, hclose⟩ := Reader.follows_of_derives h [] []
  have hstart : Reader.mk ⟨[], .empty, false⟩ [] .none = Reader.start := rfl
  rw [hstart] at hreach hquiet
  have hclose : l.close = e := hclose
  simp [ofTokens, hreach, hquiet, Reader.finish, Reader.settle, Reader.atEnd, Reader.headerAtEnd,
    Reader.groupsAtEnd, hterm, hclose]

/-- A text is parsed without diagnostics iff its tokens are an expression of the grammar.  The tree
is then that of every derivation, and it is complete. -/
theorem parse_follows_grammar (source : String) :
    ((parse source).diagnostics = [] ↔
      ∃ e, Derives .expression (Token.scan source).tokens e) ∧
    ∀ e, Derives .expression (Token.scan source).tokens e →
      (parse source).expr = e ∧ e.Complete := by
  refine ⟨⟨fun h => ⟨_, derives_ofTokens h⟩, ?_⟩, ?_⟩
  · rintro ⟨e, he⟩
    rw [parse, ofTokens_of_derives he]
  · intro e he
    refine ⟨?_, he.complete⟩
    rw [parse, ofTokens_of_derives he]

theorem parse_follows_grammar_group :
    ∃ e, Derives .expression (Token.scan "f (g \\x.x) \\y.y z").tokens e ∧
      (parse "f (g \\x.x) \\y.y z").expr = e ∧ e.Complete := by
  have hquiet : (parse "f (g \\x.x) \\y.y z").diagnostics = [] := by decide
  obtain ⟨hiff, htree⟩ := parse_follows_grammar "f (g \\x.x) \\y.y z"
  obtain ⟨e, he⟩ := hiff.mp hquiet
  exact ⟨e, he, htree e he⟩

end Expr

end LambdaCalculus
