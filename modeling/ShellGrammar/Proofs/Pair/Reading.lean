import ShellGrammar.Proofs.Pair.Follows

/-! Reading, loops and chains side by side.

Readers take twins on both sides, or leave them, or fail on both. With a tail there are
two exceptions, both at the end of the left text: bare text that goes on in the tail was
taken, or there was nothing but blank to read. The rules below turn that into rules for a
reader and what comes after it. Loops and chains are gone through by induction on the
bound of the left side. -/
namespace ShellGrammar
open ParseM

variable {σ : Setting} {c : Context} {closed : Bool} {α β : Type}

/-! ### Taking a token -/

/-- A token other than the end of the source has text. -/
theorem Rules.body_pos {rules : Rules} {place : Scan} {t : Token}
    (h : rules.tokenAt place = .ok t) (hk : t.kind ≠ .eos) : 0 < t.body.length := by
  obtain ⟨_, rfl⟩ | ⟨kind, length, hfit, rfl⟩ := tokenAt_cases h
  · exact absurd rfl hk
  · obtain ⟨r, _, _, hreach⟩ := firstFit_mem hfit
    rw [(length_cut kind hfit).2]
    exact (Pattern.reach?_eq_some_iff.mp hreach).2

namespace ParseM
variable {source : Text} {s : ParseState} {adjacent : Bool} {want : Kind → Bool} {t : Token}

theorem take_some (hs : s.lexer.Current source) (ht : s.tokenHere = .ok t)
    (hv : sought adjacent want s t = true) :
    ∃ s', take adjacent want s = .ok (some t) s' ∧ Reaches source s [t] s' := by
  obtain ⟨u, s', hu, _, hrun, hs'⟩ | ⟨u, _, hu, hv', _⟩ | ⟨f, hf, _⟩ := take_cases hs adjacent want
  · rw [ht] at hu
    cases hu
    exact ⟨s', hrun, hs'⟩
  · rw [ht] at hu
    cases hu
    rw [hv] at hv'
    cases hv'
  · rw [ht] at hf
    cases hf

theorem take_none (hs : s.lexer.Current source) (ht : s.tokenHere = .ok t)
    (hv : sought adjacent want s t = false) :
    ∃ s', take adjacent want s = .ok none s' ∧ Reaches source s [] s' := by
  obtain ⟨u, _, hu, hv', _⟩ | ⟨u, s', hu, _, hrun, hs'⟩ | ⟨f, hf, _⟩ := take_cases hs adjacent want
  · rw [ht] at hu
    cases hu
    rw [hv] at hv'
    cases hv'
  · rw [ht] at hu
    cases hu
    exact ⟨s', hrun, hs'⟩
  · rw [ht] at hf
    cases hf

theorem take_fault (hs : s.lexer.Current source) {f : LexFault} (hf : s.tokenHere = .error f) :
    take adjacent want s = .error (.fault (.ofLexFault f)) s := by
  obtain ⟨_, _, hu, _⟩ | ⟨_, _, hu, _⟩ | ⟨g, hg, hrun⟩ := take_cases hs adjacent want
  · rw [hf] at hu
    cases hu
  · rw [hf] at hu
    cases hu
  · rw [hf] at hg
    cases hg
    exact hrun

end ParseM

/-- Past a token that is not the end of the source. -/
theorem Advances.past {source : Text} {s s₁ : ParseState} {t : Token}
    (ht : s.tokenHere = .ok t) (hk : t.kind ≠ .eos) (h : Reaches source s [t] s₁) :
    Advances source closed 1 s s₁ := by
  obtain ⟨ho, hf⟩ := Rules.tokenAt_fits ht
  exact (Advances.ofOne ho hf h).mono (Rules.body_pos ht hk)

/-- Both sides have passed a token, and the tokens are twins. -/
structure Pair.Passes (P : Pair) (s s' : ParseState) (t t' : Token) (s₁ s₁' : ParseState) :
    Prop where
  token : s.tokenHere = .ok t
  token' : s'.tokenHere = .ok t'
  twin : P.Twin t t'
  reaches : Reaches P.left s [t] s₁
  reaches' : Reaches P.right s' [t'] s₁'

theorem Pair.Passes.inStep {P : Pair} {limit : Nat} {s s' s₁ s₁' : ParseState} {t t' : Token}
    (h : P.Passes s s' t t' s₁ s₁') (hs : P.InStep limit s s') : P.InStep limit s₁ s₁' :=
  hs.pass h.twin (Rules.tokenAt_fits h.token).2 h.reaches h.reaches'

namespace Pair.InStep
variable {P : Pair} {limit : Nat} {s s' : ParseState} {t t' : Token}

theorem sought_eq (hs : P.InStep limit s s') (adjacent : Bool) (want : Kind → Bool)
    (hkind : want t'.kind = want t.kind) (hblank : t'.blank = t.blank) :
    sought adjacent want s' t' = sought adjacent want s t := by
  simp only [sought, hkind, hs.allowBlank, Token.isAdjacent, hblank]

/-- What the right side finds where the left side finds a token: a twin, more bare text
where the left side is lost behind its own, the newline of the tail for the end of the
text, or nothing that is known, where the left side has read too far. -/
theorem token_cases (hs : P.InStep limit s s') (ht : s.tokenHere = .ok t) :
    (∃ t', s'.tokenHere = .ok t' ∧ P.Twin t t') ∨
    (P.tail ≠ [] ∧ t.kind = .str ∧ s.rules.Lost t.after ∧ ∃ t', s'.tokenHere = .ok t' ∧
      t'.kind = .str ∧ t'.blank = t.blank ∧ t.body.length < t'.body.length) ∨
    (P.tail ≠ [] ∧ s.rules = .command ∧ t.kind = .eos ∧ ∃ t', s'.tokenHere = .ok t' ∧
      t'.kind = .newline ∧ t'.blank = t.blank) ∨
    (P.tail ≠ [] ∧ (t.kind = .eos ∨ t.kind = .glyph) ∧ s.rules.Spent s.here) := by
  simp only [ParseState.tokenHere, hs.rules] at ht ⊢
  rcases P.tail_eq with htail | ⟨more, htail⟩
  · obtain ⟨u, t', hu, ht', htwin⟩ | ⟨f, hf, _⟩ := hs.beside.tokenAt_nil htail s.rules
    · rw [ht] at hu
      cases hu
      exact .inl ⟨t', ht', htwin⟩
    · rw [ht] at hf
      cases hf
  · have hne : P.tail ≠ [] := by rw [htail]; exact List.cons_ne_nil _ _
    obtain htwin | ⟨hk, hlost, hmore⟩ | ⟨hr, hk, hblank, hnewline⟩ | ⟨hk, hspent⟩ :=
      hs.beside.tokenAt_newline htail ht
    · exact .inl htwin
    · exact .inr (.inl ⟨hne, hk, hlost, hmore⟩)
    · refine .inr (.inr (.inl ⟨hne, hr, hk, _, hnewline, rfl, ?_⟩))
      rw [hblank]
      simp only [Rules.cut, hs.beside.rest, List.take_left]
    · exact .inr (.inr (.inr ⟨hne, hk, hspent⟩))

/-- What readers of the two sides do: they take twins, or nothing, or fail; or the left one
takes bare text that goes on in the tail; or it finds the end of the text, where the right
one finds a newline; or it has read too far. -/
theorem take_cases_all (hs : P.InStep limit s s') (adjacent : Bool) {want : Kind → Bool}
    (hwant : want .eos = false ∧ want .glyph = false) :
    (∃ t t' s₁ s₁', take adjacent want s = .ok (some t) s₁ ∧
      take adjacent want s' = .ok (some t') s₁' ∧ want t.kind = true ∧
      P.Passes s s' t t' s₁ s₁') ∨
    (∃ s₁ s₁', take adjacent want s = .ok none s₁ ∧ take adjacent want s' = .ok none s₁' ∧
      Reaches P.left s [] s₁ ∧ Reaches P.right s' [] s₁') ∨
    (∃ t s₁, P.tail ≠ [] ∧ take adjacent want s = .ok (some t) s₁ ∧ t.kind = .str ∧
      want .str = true ∧ s.tokenHere = .ok t ∧ Reaches P.left s [t] s₁ ∧
      s.rules.Lost t.after) ∨
    (∃ t t' s₁, P.tail ≠ [] ∧ take adjacent want s = .ok none s₁ ∧ Reaches P.left s [] s₁ ∧
      s.tokenHere = .ok t ∧ t.kind = .eos ∧ s'.tokenHere = .ok t' ∧ t'.kind = .newline ∧
      t'.blank = t.blank) ∨
    (∃ s₁, P.tail ≠ [] ∧ take adjacent want s = .ok none s₁ ∧ Reaches P.left s [] s₁ ∧
      s.rules.Spent s.here) ∨
    Fails P s s' (take adjacent want s) (take adjacent want s') := by
  cases ht : s.tokenHere with
  | error f =>
    exact .inr (.inr (.inr (.inr (.inr
      (hs.fails_of_fault ht (take_fault hs.left ht) fun _ => take_fault hs.right)))))
  | ok t =>
    cases hv : sought adjacent want s t with
    | true =>
      obtain ⟨s₁, hrun, hs₁⟩ := take_some hs.left ht hv
      have hkind : want t.kind = true := (Bool.and_eq_true_iff.mp hv).1
      have hnot : ∀ {kind}, want kind = false → t.kind ≠ kind := by
        rintro kind hno rfl
        rw [hno] at hkind
        cases hkind
      obtain ⟨t', ht', htwin⟩ | ⟨hne, hk, hlost, _⟩ | ⟨_, _, hk, _⟩ | ⟨_, hk | hk, _⟩ :=
        hs.token_cases ht
      · have hv' := hs.sought_eq adjacent want (congrArg want htwin.kind) htwin.blank
        obtain ⟨s₁', hrun', hs₁'⟩ := take_some hs.right ht' (hv'.trans hv)
        exact .inl ⟨t, t', s₁, s₁', hrun, hrun', hkind, ht, ht', htwin, hs₁, hs₁'⟩
      · exact .inr (.inr (.inl ⟨t, s₁, hne, hrun, hk, by rw [← hk]; exact hkind, rfl, hs₁, hlost⟩))
      · exact absurd hk (hnot hwant.1)
      · exact absurd hk (hnot hwant.1)
      · exact absurd hk (hnot hwant.2)
    | false =>
      obtain ⟨s₁, hrun, hs₁⟩ := take_none hs.left ht hv
      have hboth : ∀ t', s'.tokenHere = .ok t' → t'.kind = t.kind → t'.blank = t.blank →
          ∃ s₁ s₁', take adjacent want s = .ok none s₁ ∧ take adjacent want s' = .ok none s₁' ∧
            Reaches P.left s [] s₁ ∧ Reaches P.right s' [] s₁' := by
        intro t' ht' hkind hblank
        have hv' := hs.sought_eq adjacent want (congrArg want hkind) hblank
        obtain ⟨s₁', hrun', hs₁'⟩ := take_none hs.right ht' (hv'.trans hv)
        exact ⟨s₁, s₁', hrun, hrun', hs₁, hs₁'⟩
      obtain ⟨t', ht', htwin⟩ | ⟨_, hk, _, t', ht', hk', hblank, _⟩ |
        ⟨hne, _, hk, t', ht', hk', hblank⟩ | ⟨hne, _, hspent⟩ := hs.token_cases ht
      · exact .inr (.inl (hboth t' ht' htwin.kind htwin.blank))
      · exact .inr (.inl (hboth t' ht' (hk'.trans hk.symm) hblank))
      · exact .inr (.inr (.inr (.inl ⟨t, t', s₁, hne, hrun, hs₁, rfl, hk, ht', hk', hblank⟩)))
      · exact .inr (.inr (.inr (.inr (.inl ⟨s₁, hne, hrun, hs₁, hspent⟩))))

/-- What readers that look for no newline do. -/
theorem take_cases (hs : P.InStep limit s s') (adjacent : Bool) {want : Kind → Bool}
    (hwant : want .eos = false ∧ want .newline = false ∧ want .glyph = false) :
    (∃ t t' s₁ s₁', take adjacent want s = .ok (some t) s₁ ∧
      take adjacent want s' = .ok (some t') s₁' ∧ want t.kind = true ∧
      P.Passes s s' t t' s₁ s₁') ∨
    (∃ s₁ s₁', take adjacent want s = .ok none s₁ ∧ take adjacent want s' = .ok none s₁' ∧
      Reaches P.left s [] s₁ ∧ Reaches P.right s' [] s₁') ∨
    (∃ t s₁, P.tail ≠ [] ∧ take adjacent want s = .ok (some t) s₁ ∧ t.kind = .str ∧
      want .str = true ∧ s.tokenHere = .ok t ∧ Reaches P.left s [t] s₁ ∧
      s.rules.Lost t.after) ∨
    (∃ s₁, P.tail ≠ [] ∧ take adjacent want s = .ok none s₁ ∧ Reaches P.left s [] s₁ ∧
      s.rules.Spent s.here) ∨
    Fails P s s' (take adjacent want s) (take adjacent want s') := by
  obtain htwins | hnone | hstr | ⟨t, t', s₁, _, hrun, hs₁, _, _, ht', hk', _⟩ | hspent | hfails :=
    hs.take_cases_all adjacent ⟨hwant.1, hwant.2.2⟩
  · exact .inl htwins
  · exact .inr (.inl hnone)
  · exact .inr (.inr (.inl hstr))
  · have hv' : sought adjacent want s' t' = false := by
      rw [sought, hk', hwant.2.1, Bool.false_and]
    obtain ⟨s₁', hrun', hs₁'⟩ := take_none hs.right ht' hv'
    exact .inr (.inl ⟨s₁, s₁', hrun, hrun', hs₁, hs₁'⟩)
  · exact .inr (.inr (.inr (.inl hspent)))
  · exact .inr (.inr (.inr (.inr hfails)))

/-- What readers that look for no text do among commands. -/
theorem take_cases_command (hs : P.InStep limit s s') (hr : s.rules = .command) (adjacent : Bool)
    {want : Kind → Bool} (hwant : want .eos = false ∧ want .glyph = false ∧ want .str = false) :
    (∃ t t' s₁ s₁', take adjacent want s = .ok (some t) s₁ ∧
      take adjacent want s' = .ok (some t') s₁' ∧ want t.kind = true ∧
      P.Passes s s' t t' s₁ s₁') ∨
    (∃ s₁ s₁', take adjacent want s = .ok none s₁ ∧ take adjacent want s' = .ok none s₁' ∧
      Reaches P.left s [] s₁ ∧ Reaches P.right s' [] s₁') ∨
    (∃ t t' s₁, P.tail ≠ [] ∧ take adjacent want s = .ok none s₁ ∧ Reaches P.left s [] s₁ ∧
      s.tokenHere = .ok t ∧ t.kind = .eos ∧ s'.tokenHere = .ok t' ∧ t'.kind = .newline ∧
      t'.blank = t.blank) ∨
    Fails P s s' (take adjacent want s) (take adjacent want s') := by
  obtain htwins | hnone | ⟨_, _, _, _, _, hstr, _⟩ | hended | ⟨_, _, _, _, hspent⟩ | hfails :=
    hs.take_cases_all adjacent ⟨hwant.1, hwant.2.1⟩
  · exact .inl htwins
  · exact .inr (.inl hnone)
  · exact nomatch hwant.2.2.symm.trans hstr
  · exact .inr (.inr (.inl hended))
  · exact absurd hr hspent.1
  · exact .inr (.inr (.inr hfails))

end Pair.InStep

/-- Kinds of which neither the end of the source nor a newline, an odd character or bare
text is one. -/
def Definite (kinds : List Kind) : Bool :=
  !kinds.isEmpty && [Kind.eos, .newline, .glyph, .str].all fun kind => !kinds.contains kind

theorem Definite.among {kinds : List Kind} (h : Definite kinds = true) :
    (ParseM.among kinds .eos = false ∧ ParseM.among kinds .newline = false ∧
      ParseM.among kinds .glyph = false) ∧ ParseM.among kinds .str = false := by
  simp only [Definite, List.all_cons, List.all_nil, Bool.and_true, Bool.and_eq_true,
    Bool.not_eq_true'] at h
  obtain ⟨hempty, heos, hnewline, hglyph, hstr⟩ := h
  simp only [ParseM.among, hempty, heos, hnewline, hglyph, hstr, Bool.or_self, and_self]

namespace Follows
variable {D : β → Scan → Prop} {room : Nat} {ate : β → Nat} {k k' : Option Token → ParseM β}

/-- A reader and what comes after it. -/
theorem take_bind {adjacent : Bool} (want : Kind → Bool)
    (hwant : want .eos = false ∧ want .newline = false ∧ want .glyph = false)
    (hstay : Follows σ c closed D room ate (k none) (k' none))
    (hgo : ∀ t t', want t.kind = true → t'.kind = t.kind → t'.body = t.body →
      Follows σ c closed D (room - 1) (fun b => ate b - 1) (k (some t)) (k' (some t')))
    (hspent : Lapses c c.Spent D (k none))
    (hlost : ∀ t, t.kind = .str → want .str = true → Lapses c c.Lost D (k (some t))) :
    Follows σ c closed D room ate (take adjacent want >>= k) (take adjacent want >>= k') := by
  intro P hP s s' hs hc
  have hrules : s.rules = c.mode.rules := by rw [← hc]; rfl
  have hnot : ∀ {t : Token}, want t.kind = true → t.kind ≠ .eos := by
    intro t hkind hk
    rw [hk, hwant.1] at hkind
    cases hkind
  obtain ⟨t, t', s₁, s₁', hrun, hrun', hkind, hpass⟩ | ⟨s₁, s₁', hrun, hrun', hs₁, hs₁'⟩ |
    ⟨t, s₁, htail, hrun, hstr, hwantStr, ht, hs₁, hlost₁⟩ | ⟨s₁, htail, hrun, hs₁, hspent₁⟩ |
    hfails := hs.take_cases adjacent hwant
  · rw [bind_of_ok hrun, bind_of_ok hrun']
    exact .after (.past hpass.token (hnot hkind) hpass.reaches) hpass.reaches'.keeps.holds
      (hgo t t' hkind hpass.twin.kind hpass.twin.body P hP s₁ s₁' (hpass.inStep hs)
        (hpass.reaches.keeps.context.trans hc))
  · rw [bind_of_ok hrun, bind_of_ok hrun']
    exact .after (.ofNil hs.left hs₁) hs₁'.keeps.holds
      (hstay P hP s₁ s₁' (hs.stay hs₁ hs₁') (hs₁.keeps.context.trans hc))
  · have hc₁ := hs₁.keeps.context.trans hc
    have hkind : want t.kind = true := by rw [hstr]; exact hwantStr
    rw [bind_of_ok hrun]
    refine .afterLost (.past ht (hnot hkind) hs₁) htail
      (hgo t t hkind rfl rfl (.same P.left) (σ.admits_same _) s₁ s₁
        (Pair.inStep_same hs₁.current) hc₁)
      (hlost t hstr hwantStr P.left s₁ hs₁.current hc₁ ?_)
    rw [hs₁.here_one, Context.Lost, ← hrules]
    exact hlost₁
  · have hc₁ := hs₁.keeps.context.trans hc
    rw [bind_of_ok hrun]
    refine .afterLost (.ofNil hs.left hs₁) htail
      (hstay (.same P.left) (σ.admits_same _) s₁ s₁ (Pair.inStep_same hs₁.current) hc₁)
      (hspent P.left s₁ hs₁.current hc₁ ?_)
    rw [hs₁.here_nil hs.left, Context.Spent, ← hrules]
    exact hspent₁
  · exact hfails.bind.tracks

theorem next_congr {kinds : List Kind}
    (h : Follows σ c closed D room ate (take false (among kinds) >>= k)
      (take false (among kinds) >>= k')) :
    Follows σ c closed D room ate (ParseM.next kinds >>= k) (ParseM.next kinds >>= k') := by
  refine h.congr (fun source s hs _ => ?_) fun source s hs _ => ?_
  · exact bind_of_eq (next_eq_take hs kinds)
  · exact bind_of_eq (next_eq_take hs kinds)

/-- A reader of definite kinds and what comes after it. -/
theorem next_bind {kinds : List Kind} (hkinds : Definite kinds = true)
    (hstay : Follows σ c closed D room ate (k none) (k' none))
    (hgo : ∀ t t', t.kind ∈ kinds → t'.kind = t.kind → t'.body = t.body →
      Follows σ c closed D (room - 1) (fun b => ate b - 1) (k (some t)) (k' (some t')))
    (hspent : Lapses c c.Spent D (k none)) :
    Follows σ c closed D room ate (ParseM.next kinds >>= k) (ParseM.next kinds >>= k') := by
  obtain ⟨hwant, hstr⟩ := Definite.among hkinds
  refine next_congr (take_bind _ hwant hstay (fun t t' hkind => hgo t t' ?_) hspent ?_)
  · have hempty : kinds.isEmpty = false := by
      cases kinds with
      | nil => cases hkinds
      | cons _ _ => rfl
    rw [among, hempty, Bool.false_or] at hkind
    exact List.contains_iff_mem.mp hkind
  · intro t _ hyes
    rw [hstr] at hyes
    cases hyes

/-- A look for definite kinds and what comes after it. -/
theorem look_bind (adjacent : Bool) {kinds : List Kind} (hkinds : Definite kinds = true)
    (hstay : Follows σ c closed D room ate (k none) (k' none))
    (hgo : ∀ t t', t'.kind = t.kind → t'.body = t.body →
      Follows σ c closed D room ate (k (some t)) (k' (some t')))
    (hspent : Lapses c c.Spent D (k none)) :
    Follows σ c closed D room ate (look adjacent kinds >>= k) (look adjacent kinds >>= k') := by
  intro P hP s s' hs hc
  have hrules : s.rules = c.mode.rules := by rw [← hc]; rfl
  obtain ⟨t, t', s₁, s₁', hrun, hrun', _, hpass⟩ | ⟨s₁, s₁', hrun, hrun', _, _⟩ |
    ⟨t, s₁, _, _, _, hstr, _⟩ | ⟨s₁, htail, hrun, _, hspent₁⟩ | hfails :=
      hs.take_cases adjacent (Definite.among hkinds).1
  · obtain ⟨s₂, hlook, hs₂⟩ := look_of_take hs.left hrun
    obtain ⟨s₂', hlook', hs₂'⟩ := look_of_take hs.right hrun'
    rw [bind_of_ok hlook, bind_of_ok hlook']
    exact .after (.ofNil hs.left hs₂) hs₂'.keeps.holds
      (hgo t t' hpass.twin.kind hpass.twin.body P hP s₂ s₂' (hs.stay hs₂ hs₂')
        (hs₂.keeps.context.trans hc))
  · obtain ⟨s₂, hlook, hs₂⟩ := look_of_take hs.left hrun
    obtain ⟨s₂', hlook', hs₂'⟩ := look_of_take hs.right hrun'
    rw [bind_of_ok hlook, bind_of_ok hlook']
    exact .after (.ofNil hs.left hs₂) hs₂'.keeps.holds
      (hstay P hP s₂ s₂' (hs.stay hs₂ hs₂') (hs₂.keeps.context.trans hc))
  · rw [(Definite.among hkinds).2] at hstr
    cases hstr
  · obtain ⟨s₂, hlook, hs₂⟩ := look_of_take hs.left hrun
    have hc₂ := hs₂.keeps.context.trans hc
    rw [bind_of_ok hlook]
    refine .afterLost (.ofNil hs.left hs₂) htail
      (hstay (.same P.left) (σ.admits_same _) s₂ s₂ (Pair.inStep_same hs₂.current) hc₂)
      (hspent P.left s₂ hs₂.current hc₂ ?_)
    rw [hs₂.here_nil hs.left, Context.Spent, ← hrules]
    exact hspent₁
  · cases ht : s.tokenHere with
    | error f =>
      exact (hs.fails_of_fault ht (look_of_fault hs.left ht)
        fun _ => look_of_fault hs.right).bind.tracks
    | ok t =>
      obtain ⟨f, s₁, herr, _⟩ := hfails
      obtain ⟨_, _, _, _, hok, _⟩ | ⟨_, _, _, _, hok, _⟩ | ⟨g, hg, _⟩ :=
        ParseM.take_cases hs.left adjacent (among kinds)
      · exact nomatch hok.symm.trans herr
      · exact nomatch hok.symm.trans herr
      · exact nomatch hg.symm.trans ht

end Follows

namespace Paces
variable {room : Nat} {ate : β → Nat} {k k' : Option Token → ParseM β}

theorem next_bind {kinds : List Kind} (hkinds : Definite kinds = true)
    (hstay : Paces σ c room ate (k none) (k' none))
    (hgo : ∀ t t', t.kind ∈ kinds → t'.kind = t.kind → t'.body = t.body →
      Paces σ c (room - 1) (fun b => ate b - 1) (k (some t)) (k' (some t'))) :
    Paces σ c room ate (ParseM.next kinds >>= k) (ParseM.next kinds >>= k') :=
  Follows.next_bind hkinds hstay hgo (hstay.lapses fun _ _ => id)

theorem peek_bind {kinds : List Kind} (hkinds : Definite kinds = true)
    (hstay : Paces σ c room ate (k none) (k' none))
    (hgo : ∀ t t', t'.kind = t.kind → t'.body = t.body →
      Paces σ c room ate (k (some t)) (k' (some t'))) :
    Paces σ c room ate (ParseM.peek kinds >>= k) (ParseM.peek kinds >>= k') :=
  Follows.look_bind false hkinds hstay hgo (hstay.lapses fun _ _ => id)

/-- Less room is room enough. -/
theorem less {room' : Nat} {act act' : ParseM α} {ate : α → Nat} (h : Paces σ c room ate act act')
    (hle : room' ≤ room) : Paces σ c room' ate act act' :=
  h.mono (fun _ _ => id) hle fun _ => Nat.le_refl _

end Paces

/-! ### Asking for a shape -/

/-- A shape that takes no newline and does not start with a backslash. -/
def Pattern.isInline (p : Pattern) : Bool := p.avoids '\n' && !p.mayStart '\\'

/-- What asking for a shape does on both sides. -/
theorem Pair.InStep.accept_cases {P : Pair} {limit : Nat} {s s' : ParseState}
    (hs : P.InStep limit s s') (closed : Bool) {pattern : Pattern}
    (hp : pattern.isInline = true) (kind : Kind)
    (allowBlank : Bool) :
    (∃ t t' s₁ s₁', lexing (LexM.acceptWith pattern kind allowBlank) s = .ok (some t) s₁ ∧
      lexing (LexM.acceptWith pattern kind allowBlank) s' = .ok (some t') s₁' ∧
      t'.body = t.body ∧ Advances P.left closed 1 s s₁ ∧ Keeps s' s₁' ∧ P.InStep limit s₁ s₁') ∨
    (∃ s₁ s₁', lexing (LexM.acceptWith pattern kind allowBlank) s = .ok none s₁ ∧
      lexing (LexM.acceptWith pattern kind allowBlank) s' = .ok none s₁' ∧
      Advances P.left closed 0 s s₁ ∧ Keeps s' s₁' ∧ P.InStep limit s₁ s₁') ∨
    (∃ s₁, P.tail ≠ [] ∧ lexing (LexM.acceptWith pattern kind allowBlank) s = .ok none s₁ ∧
      Advances P.left closed 0 s s₁ ∧ s.rules.Lost s₁.here) := by
  obtain ⟨havoids, hslash⟩ := Bool.and_eq_true_iff.mp hp
  obtain ⟨s₁, hrun, hs₁⟩ := acceptWith_cases hs.left pattern kind allowBlank
  obtain ⟨s₁', hrun', hs₁'⟩ := acceptWith_cases hs.right pattern kind allowBlank
  rw [hs.rules] at hrun' hs₁'
  have hcases : (s.rules.takeAt pattern kind allowBlank s.here = none ∧
        s.rules.takeAt pattern kind allowBlank s'.here = none) ∨
      (∃ t t', s.rules.takeAt pattern kind allowBlank s.here = some t ∧
        s.rules.takeAt pattern kind allowBlank s'.here = some t' ∧ P.Twin t t') ∨
      (P.tail ≠ [] ∧ s.rules.takeAt pattern kind allowBlank s.here = none ∧
        s.rules.Lost s.here) := by
    rcases P.tail_eq with htail | ⟨more, htail⟩
    · rcases hs.beside.takeAt_nil htail s.rules pattern kind allowBlank with h | h
      · exact .inl h
      · exact .inr (.inl h)
    · have hne : P.tail ≠ [] := by rw [htail]; exact List.cons_ne_nil _ _
      rcases hs.beside.takeAt_newline htail s.rules havoids (by simpa using hslash) kind
        allowBlank with h | h | h
      · exact .inl h
      · exact .inr (.inl h)
      · exact .inr (.inr ⟨hne, h⟩)
  obtain ⟨hnone, hnone'⟩ | ⟨t, t', hsome, hsome', htwin⟩ | ⟨hne, hnone, hlost⟩ := hcases
  · rw [hnone] at hrun hs₁
    rw [hnone'] at hrun' hs₁'
    exact .inr (.inl ⟨s₁, s₁', hrun, hrun', .ofNil hs.left hs₁, hs₁'.keeps, hs.stay hs₁ hs₁'⟩)
  · rw [hsome] at hrun hs₁
    rw [hsome'] at hrun' hs₁'
    obtain ⟨ho, hf⟩ := Rules.takeAt_fits hsome
    have hpos : 0 < t.body.length := by
      obtain ⟨length, hreach, rfl⟩ := Rules.takeAt_cases hsome
      obtain ⟨hreach, hpos⟩ := Pattern.reach?_eq_some_iff.mp hreach
      have hle := Pattern.reach_le hreach
      simp only [Rules.cut, List.length_take]
      omega
    exact .inl ⟨t, t', s₁, s₁', hrun, hrun', htwin.body, (Advances.ofOne ho hf hs₁).mono hpos,
      hs₁'.keeps, hs.pass htwin hf hs₁ hs₁'⟩
  · rw [hnone] at hrun hs₁
    refine .inr (.inr ⟨s₁, hne, hrun, .ofNil hs.left hs₁, ?_⟩)
    rw [hs₁.here_nil hs.left]
    exact hlost

namespace Follows
variable {D : β → Scan → Prop} {room : Nat} {ate : β → Nat} {k k' : Option Token → ParseM β}

theorem acceptWith_bind {pattern : Pattern} (hp : pattern.isInline = true) (kind : Kind)
    (allowBlank : Bool) (hstay : Follows σ c closed D room ate (k none) (k' none))
    (hgo : ∀ t t' : Token, t'.body = t.body →
      Follows σ c closed D (room - 1) (fun b => ate b - 1) (k (some t)) (k' (some t')))
    (hlost : Lapses c c.Lost D (k none)) :
    Follows σ c closed D room ate (lexing (LexM.acceptWith pattern kind allowBlank) >>= k)
      (lexing (LexM.acceptWith pattern kind allowBlank) >>= k') := by
  intro P hP s s' hs hc
  obtain ⟨t, t', s₁, s₁', hrun, hrun', hbody, hadvances, hkeeps, hstep⟩ |
    ⟨s₁, s₁', hrun, hrun', hadvances, hkeeps, hstep⟩ | ⟨s₁, htail, hrun, hadvances, hlost₁⟩ :=
      hs.accept_cases closed hp kind allowBlank
  · rw [bind_of_ok hrun, bind_of_ok hrun']
    exact .after hadvances hkeeps.holds (hgo t t' hbody P hP s₁ s₁' hstep
      (hadvances.holds.context.trans hc))
  · rw [bind_of_ok hrun, bind_of_ok hrun']
    exact .after hadvances hkeeps.holds
      (hstay P hP s₁ s₁' hstep (hadvances.holds.context.trans hc))
  · have hc₁ := hadvances.holds.context.trans hc
    have hrules : s.rules = c.mode.rules := by rw [← hc]; rfl
    rw [hrules] at hlost₁
    rw [bind_of_ok hrun]
    exact .afterLost hadvances htail
      (hstay (.same P.left) (σ.admits_same _) s₁ s₁ (Pair.inStep_same hadvances.current) hc₁)
      (hlost P.left s₁ hadvances.current hc₁ hlost₁)

theorem accept_bind {pattern : Pattern} (hp : pattern.isInline = true) {kind : Kind}
    (hstay : Follows σ c closed D room ate (k none) (k' none))
    (hgo : ∀ t t' : Token, t'.body = t.body →
      Follows σ c closed D (room - 1) (fun b => ate b - 1) (k (some t)) (k' (some t')))
    (hlost : Lapses c c.Lost D (k none)) :
    Follows σ c closed D room ate (ParseM.accept pattern kind >>= k)
      (ParseM.accept pattern kind >>= k') := by
  refine (acceptWith_bind hp kind c.mode.allowBlank hstay hgo hlost).congr
    (fun source s _ hc => ?_) fun source s _ hc => ?_
  · exact bind_of_eq (accept_eq_acceptWith hc)
  · exact bind_of_eq (accept_eq_acceptWith hc)

end Follows

namespace Paces
variable {room : Nat} {ate : β → Nat} {k k' : Option Token → ParseM β}
  {pattern : Pattern} {kind : Kind}

theorem accept_bind (hc : c.mode.rules ≠ .command) (hp : pattern.isInline = true)
    (hstay : Paces σ c room ate (k none) (k' none))
    (hgo : ∀ t t' : Token, t'.body = t.body →
      Paces σ c (room - 1) (fun b => ate b - 1) (k (some t)) (k' (some t'))) :
    Paces σ c room ate (ParseM.accept pattern kind >>= k) (ParseM.accept pattern kind >>= k') :=
  Follows.accept_bind hp hstay hgo fun source s hs hcontext hlost =>
    hstay.lapses (fun _ _ => id) source s hs hcontext (hlost.spent hc)

theorem acceptPastBlank_bind (hc : c.mode.rules ≠ .command) (hp : pattern.isInline = true)
    (hstay : Paces σ c room ate (k none) (k' none))
    (hgo : ∀ t t' : Token, t'.body = t.body →
      Paces σ c (room - 1) (fun b => ate b - 1) (k (some t)) (k' (some t'))) :
    Paces σ c room ate (ParseM.acceptPastBlank pattern kind >>= k)
      (ParseM.acceptPastBlank pattern kind >>= k') :=
  Follows.acceptWith_bind hp kind true hstay hgo fun source s hs hcontext hlost =>
    hstay.lapses (fun _ _ => id) source s hs hcontext (hlost.spent hc)

end Paces

/-! ### Loops, alternatives and chains -/

/-- How much a reader that may yield nothing has read at least. -/
def some1 : Option α → Nat
  | none => 0
  | some _ => 1

theorem Lapses.pure {X : Scan → Prop} {D : α → Scan → Prop} {a : α}
    (h : ∀ place, X place → D a place) : Lapses c X D (Pure.pure a) := by
  intro source s _ _ hx b s₁ hrun
  cases hrun
  exact h _ hx

/-- A last step that only names the result. -/
theorem Lapses.map {X : Scan → Prop} {D : β → Scan → Prop} {act : ParseM α} {f : α → β}
    (h : Lapses c X (fun a => D (f a)) act) :
    Lapses c X D (act >>= fun a => Pure.pure (f a)) := by
  intro source s hs hc hx b s₁ hrun
  cases hact : act s with
  | error e s₂ =>
    rw [bind_of_error hact] at hrun
    cases hrun
  | ok a s₂ =>
    rw [bind_of_ok hact] at hrun
    cases hrun
    exact h source s hs hc hx a _ hact

theorem Follows.map {D : β → Scan → Prop} {room : Nat} {ate : β → Nat} {act act' : ParseM α}
    {f : α → β} (h : Follows σ c closed (fun a => D (f a)) room (fun a => ate (f a)) act act') :
    Follows σ c closed D room ate (act >>= fun a => Pure.pure (f a))
      (act' >>= fun a => Pure.pure (f a)) :=
  h.bind (fun _ => .pure (Nat.sub_self _)) fun _ => Lapses.pure fun _ => id

namespace Follows
variable {D : Option α → Scan → Prop} {E : Scan → Prop} {room : Nat}
  {step step' : ParseM (Option α)}

theorem breached {D : α → Scan → Prop} {ate : α → Nat} (b : Breach) (act' : ParseM α) :
    Follows σ c closed D 0 ate (ShellGrammar.breached b) act' := by
  intro P _ s s' _ _
  exact ⟨.refl s, Nat.zero_le _⟩

/-- After a run begun in a hopeless place, another one. -/
theorem lapses_bind {D : α → Scan → Prop} {D' : β → Scan → Prop} {ate : α → Nat}
    {act act' : ParseM α} {k : α → ParseM β} {X : Scan → Prop} {Y : α → Scan → Prop}
    (hact : Follows σ c closed D room ate act act') (hX : Lapses c X Y act)
    (hk : ∀ a, Lapses c (Y a) D' (k a)) : Lapses c X D' (act >>= k) := by
  intro source s hs hc hx b s₂ hrun
  cases hfirst : act s with
  | error e s₁ =>
    rw [bind_of_error hfirst] at hrun
    cases hrun
  | ok a s₁ =>
    have htracks := hact (.same source) (σ.admits_same source) s s (Pair.inStep_same hs) hc
    rw [hfirst] at htracks
    rw [bind_of_ok hfirst] at hrun
    exact hk a source s₁ htracks.1.current (htracks.1.holds.context.trans hc)
      (hX source s hs hc hx a s₁ hfirst) b s₂ hrun


/-- A loop begun in a hopeless place. -/
theorem lapses_gather {ate : Option α → Nat} {X : Scan → Prop} {Y : Option α → Scan → Prop}
    (hstep : Follows σ c closed D room ate step step') (hX : Lapses c X Y step)
    (hY : ∀ a place, Y (some a) place → X place) :
    ∀ bound, Lapses c X (fun _ => Y none) (ShellGrammar.gather step bound)
  | 0 => fun _ _ _ _ _ _ _ hrun => nomatch hrun
  | bound + 1 => by
    refine hstep.lapses_bind hX fun o => ?_
    cases o with
    | none => exact .pure fun _ => id
    | some a =>
      have hrest := lapses_gather hstep hX hY bound
      exact Lapses.map fun source s hs hc hy => hrest source s hs hc (hY a _ hy)

/-- A loop each round of which reads something. -/
theorem gather (hstep : Follows σ c true D room some1 step step')
    (hnone : ∀ place, D none place → E place)
    (hsome : ∀ a bound, Lapses c (D (some a)) (fun _ => E) (ShellGrammar.gather step bound)) :
    ∀ bound bound', bound ≤ room → bound ≤ bound' →
      Follows σ c true (fun _ => E) bound (fun _ => 0) (ShellGrammar.gather step bound)
        (ShellGrammar.gather step' bound')
  | 0, bound', _, _ => breached _ _
  | bound + 1, 0, _, hle => absurd hle (Nat.not_succ_le_zero _)
  | bound + 1, bound' + 1, hroom, hle => by
    have hrest := gather hstep hnone hsome bound bound' (by omega) (by omega)
    refine (hstep.mono (fun _ _ => id) hroom fun _ => Nat.le_refl _).bind (fun o => ?_) fun o => ?_
    · cases o with
      | none => exact .pure rfl
      | some a => exact hrest.bind (fun as => .pure rfl) fun as => .pure fun _ => id
    · cases o with
      | none => exact .pure hnone
      | some a => exact Lapses.map (hsome a bound)

end Follows

namespace Paces
variable {room : Nat} {step step' : ParseM (Option α)}

theorem gather (hstep : Paces σ c room some1 step step') {bound bound' : Nat}
    (hroom : bound ≤ room) (hle : bound ≤ bound') :
    Paces σ c bound (fun _ => 0) (ShellGrammar.gather step bound)
      (ShellGrammar.gather step' bound') := by
  refine Follows.gather hstep (fun _ => id) (fun a bound => ?_) bound bound' hroom hle
  exact Follows.lapses_gather (Y := fun _ => c.Spent) hstep (hstep.lapses fun _ _ => id)
    (fun _ _ => id) bound

theorem firstOf_nil : Paces σ c room (fun _ : Option α => 0) (firstOf []) (firstOf []) :=
  .pure rfl

/-- The first of some alternatives that yields something. -/
theorem firstOf_cons {alternative alternative' : ParseM (Option α)}
    {rest rest' : List (ParseM (Option α))}
    (h : Paces σ c room (fun _ => 0) alternative alternative')
    (hrest : Paces σ c room (fun _ => 0) (firstOf rest) (firstOf rest')) :
    Paces σ c room (fun _ => 0) (firstOf (alternative :: rest))
      (firstOf (alternative' :: rest')) := by
  refine h.bind fun o => ?_
  cases o with
  | none => exact hrest
  | some a => exact .pure rfl

end Paces

/-! ### Chains -/

/-- Opening a level moves nothing. -/
theorem lapses_descend (X : Scan → Prop) {limit : Nat} :
    Lapses c X (fun _ => X) (ParseM.descend limit) := by
  intro source s hs _ hx a s₁ hrun
  obtain ⟨hopen, _⟩ | ⟨f, s₂, hfault, _⟩ := (Pair.inStep_same hs : Pair.InStep _ limit s s).descend
  · rw [hopen] at hrun
    cases hrun
    exact hx
  · rw [hfault] at hrun
    cases hrun

section Chains
variable {operator operator' : ParseM (Option β)} {operand operand' : β → ParseM Node}
  {join : β → Node → Node → Node} {D : Option β → Scan → Prop} {room : Nat}

/-- The rest of a chain. An operator may lead to a place that its operand makes nothing of. -/
theorem Follows.chainRest (join : β → Node → Node → Node)
    (hoperator : Follows σ c true D room some1 operator operator')
    (hnone : ∀ place, D none place → c.Spent place)
    (hoperand : ∀ op, Paces σ c (room - 1) (fun _ => 0) (operand op) (operand' op))
    (hlost : ∀ op, Lapses c (D (some op)) (fun _ => c.Spent) (operand op)) :
    ∀ bound bound', bound ≤ room → bound ≤ bound' → ∀ left,
      Follows σ c false (fun _ => c.Spent) bound (fun _ => 0)
        (ParseM.chainRest (ParseM.descend σ.limit) operator operand join bound left)
        (ParseM.chainRest (ParseM.descend σ.limit) operator' operand' join bound' left)
  | 0, _, _, _ => fun _ => breached _ _
  | bound + 1, 0, _, hle => absurd hle (Nat.not_succ_le_zero _)
  | bound + 1, bound' + 1, hroom, hle => by
    intro left
    have hrest := Follows.chainRest join hoperator hnone hoperand hlost bound bound' (by omega) (by omega)
    have hfirst : Follows σ c false D (bound + 1) some1 operator operator' :=
      (hoperator.mono (fun _ _ => id) hroom fun _ => Nat.le_refl _).opened
    refine hfirst.bind (fun o => ?_) fun o => ?_
    · cases o with
      | none => exact .pure rfl
      | some op =>
        have hright : Follows σ c false (fun _ => c.Spent) bound (fun _ => 0) (operand op)
            (operand' op) :=
          ((hoperand op).mono (fun _ _ => id) (by omega) fun _ => Nat.le_refl _).opened
        have hopen : Follows σ c false (fun _ _ => False) bound (fun _ => 0)
          (ParseM.descend σ.limit) (ParseM.descend σ.limit) := Follows.descend rfl
        refine hopen.bind (fun _ => hright.bind (fun right => ?_) fun right => ?_) fun _ => ?_
        · exact hrest (join op left right)
        · exact (hrest (join op left right)).lapses fun _ _ => id
        · exact fun _ _ _ _ hfalse => hfalse.elim
    · cases o with
      | none => exact .pure hnone
      | some op =>
        have hopen : Follows σ c false (fun _ _ => False) bound (fun _ => 0)
          (ParseM.descend σ.limit) (ParseM.descend σ.limit) := Follows.descend rfl
        refine hopen.lapses_bind (lapses_descend _) fun _ => ?_
        refine (hoperand op).lapses_bind (hlost op) fun right => ?_
        exact (hrest (join op left right)).lapses fun _ _ => id

/-- Operands joined by operators. -/
theorem Paces.chain {g g' : Grammar} {first first' : ParseM Node}
    (hg : g.descend = ParseM.descend σ.limit) (hg' : g'.descend = ParseM.descend σ.limit)
    (hsteps : g.steps ≤ g'.steps) (hfirst : Paces σ c g.steps (fun _ => 0) first first')
    (hoperator : Follows σ c true D g.steps some1 operator operator')
    (hnone : ∀ place, D none place → c.Spent place)
    (hoperand : ∀ op, Paces σ c (g.steps - 1) (fun _ => 0) (operand op) (operand' op))
    (hlost : ∀ op, Lapses c (D (some op)) (fun _ => c.Spent) (operand op)) :
    Paces σ c g.steps (fun _ => 0) (ParseM.chain g first operator operand join)
      (ParseM.chain g' first' operator' operand' join) := by
  rw [ParseM.chain, ParseM.chain, hg, hg']
  have hrest := Follows.chainRest join hoperator hnone hoperand hlost g.steps g'.steps
    (Nat.le_refl _) hsteps
  exact .folding (hfirst.opened.bind hrest fun left => (hrest left).lapses fun _ _ => id)

end Chains

end ShellGrammar
