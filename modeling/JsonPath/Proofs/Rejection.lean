/-
  JsonPath.Proofs.Rejection — where reading a path fails and what it expected there.

  A prefix of a source is viable if it spells terminals that begin a path. A source that
  is no path is rejected at the end of its longest viable prefix, and what was expected
  there are the terminals that may come next in a path.

  The run of the chain gets to a place where every form is missed. Of those misses the
  furthest count: what was followed up to them is the end of the longest viable prefix
  (`Front.viable_le`), and of the beginnings of forms only one gets that far, so all that
  are missed there continue the same terminals. The end of the input is expected where a
  chain ends at that very place: an `@` that nothing follows leads further on, past
  where the chain before it would have ended.

  Proved: `rejection_exact`.
-/

import JsonPath.Proofs.Furthest
import JsonPath.Proofs.Recognition

namespace JsonPath

open scoped Computability
open Lexicon Grammar

/-- The first `k` code points of the source spell these terminals, which begin a path. -/
def ViableAt (s : Text) (k : Nat) (ts : List Terminal) : Prop :=
  k ≤ s.length ∧ Viable ts ∧ ∃ as, Spelled as (s.take k) ∧ as.map Token.terminal = ts

/-! ## Where a run is stuck -/

theorem Misses.drop_of_isPrefix {c d : Cursor} {us f : List Terminal} {t : Terminal} {as : List Token} {m : Miss}
    (h : Misses c f m) (hp : us ++ [t] <+: f) (hu : Follows c us as d) : ∃ ts, Misses d (t :: ts) m := by
  obtain ⟨ts, rfl⟩ := hp
  rw [List.append_assoc] at h
  exact ⟨ts, h.drop hu⟩

/-- Where every form is missed, the beginning of a form that is followed furthest. -/
structure Front (last : Cursor) (part : List Terminal) (place : Cursor) : Prop where
  begins : ∃ t, Begins part t
  follows : ∃ as, Follows last part as place
  missed : ∀ f ∈ forms, ∃ m, Misses last f m ∧ m.offset ≤ place.front.offset

namespace Front

variable {c last place : Cursor} {part : List Terminal}

theorem last_le (h : Front last part place) : last.front.offset ≤ place.front.offset := by
  obtain ⟨m, hm, hle⟩ := h.missed [.mark .at] (List.mem_cons_self ..)
  have := hm.front_le
  omega

/-- What may come next in a form is missed at the front. -/
theorem exists_miss (h : Front last part place) {t : Terminal} (hb : Begins part t) :
    place.take t = .error ⟨place.front.offset, t⟩ ∧ ∃ f ∈ forms, Misses last f ⟨place.front.offset, t⟩ := by
  obtain ⟨f, hf, hp⟩ := hb
  obtain ⟨as, hfollow⟩ := h.follows
  obtain ⟨m, hm, hle⟩ := h.missed f hf
  obtain ⟨ts, hm'⟩ := hm.drop_of_isPrefix hp hfollow
  have hge := hm'.front_le
  have htake := hm'.take_eq (by omega)
  obtain ⟨rfl, -⟩ := Cursor.take_error htake
  exact ⟨htake, f, hf, hm⟩

theorem miss_iff (h : Front last part place) (t : Terminal) :
    (∃ f ∈ forms, Misses last f ⟨place.front.offset, t⟩) ↔ Begins part t := by
  constructor
  · intro ⟨f, hf, hm⟩
    obtain ⟨us, t', bs, d, hp, hu, herr⟩ := hm.exists_follows
    obtain ⟨heq, -⟩ := Cursor.take_error herr
    rw [Miss.mk.injEq] at heq
    obtain ⟨t₀, ht₀⟩ := h.begins
    obtain ⟨as, hfollow⟩ := h.follows
    obtain rfl := begins_unique_of_front ht₀ ⟨f, hf, hp⟩ hfollow hu (Int.ofNat_inj.mp heq.1)
    rw [heq.2]
    exact ⟨f, hf, hp⟩
  · intro hb
    exact (h.exists_miss hb).2

/-- What else forms can be followed along gets no further, and only the same terminals get as far. -/
theorem viable_le (h : Front last part place) {fs gs : List (List Terminal)} {vs : List Terminal} {t : Terminal}
    {as bs : List Token} {d : Cursor} (hfs : ∀ f ∈ fs, f ∈ forms) (hgs : ∀ g ∈ gs, g ∈ forms)
    (hf : Follows c fs.flatten as last) (hv : Begins vs t) (hg : Follows c (gs.flatten ++ vs) bs d) :
    d.front.offset ≤ place.front.offset ∧
      (d.front.offset = place.front.offset → gs.flatten ++ vs = fs.flatten ++ part) := by
  obtain ⟨bs₁, bs₂, e, rfl, hg, hvs⟩ := hg.split
  have hlast := h.last_le
  rcases flatten_compare hfs hgs hf hg with ⟨k, hs, rfl, cs, hk⟩ | ⟨hs, rfl, cs, hk⟩
  · obtain ⟨m, hm, -⟩ := h.missed k (hgs k (by simp))
    obtain ⟨_, _, _, -, hfollow, -⟩ := hk.split
    exact absurd hfollow hm.not_follows
  · cases hs with
    | nil =>
      cases hk
      obtain ⟨g, hgf, hp⟩ := hv
      obtain ⟨m, hm, hle⟩ := h.missed g hgf
      obtain ⟨ts, hm'⟩ := hm.drop_of_isPrefix hp hvs
      have hge := hm'.front_le
      refine ⟨by omega, fun heq => ?_⟩
      obtain ⟨t₀, ht₀⟩ := h.begins
      obtain ⟨_, hfollow⟩ := h.follows
      rw [begins_unique_of_front ⟨g, hgf, hp⟩ ht₀ hvs hfollow heq, List.append_nil]
    | cons k hs =>
      obtain ⟨_, _, d', -, hk, hrest⟩ := hk.split
      have hlt := front_lt_of_form (hfs k (by simp)) hk hv hvs
      have hle := hrest.offset_le
      have := last.le_front
      omega

end Front

theorem Stuck.exists_front {last : Cursor} {ms : List Miss} (h : Stuck last ms) :
    ∃ part place, Front last part place ∧ (Furthest.ofMisses ms).offset = place.front.offset ∧
      ∀ t, t ∈ (Furthest.ofMisses ms).expected ↔ Begins part t := by
  have hreported : ∀ {m}, Reported m ms → m.offset ≤ (Furthest.ofMisses ms).offset := by
    intro m hm
    obtain ⟨n, hn, hle⟩ := hm.exists_le
    exact Int.le_trans hle (Furthest.le_offset_noteAll _ ms hn)
  obtain ⟨at', hat, hatr⟩ := h.missed [.mark .at] (List.mem_cons_self ..)
  have hlast : (last.front.offset : Int) ≤ (Furthest.ofMisses ms).offset := Int.le_trans hat.front_le (hreported hatr)
  have hback := last.le_front
  have hform : ∀ m ∈ ms, m.offset = (Furthest.ofMisses ms).offset → ∃ f ∈ forms, Misses last f m := by
    intro m hm heq
    rcases h.misses m hm with hf | hlt
    · exact hf
    · omega
  rcases Furthest.offset_noteAll .start ms with heq | ⟨m, hm, heq⟩
  · have : (Furthest.ofMisses ms).offset = -1 := heq
    omega
  · obtain ⟨f, hf, hmiss⟩ := hform m hm heq
    obtain ⟨us, t, as, d, hp, hu, herr⟩ := hmiss.exists_follows
    obtain ⟨rfl, -⟩ := Cursor.take_error herr
    have heq : (Furthest.ofMisses ms).offset = d.front.offset := heq.symm
    have hfront : Front last us d := by
      refine ⟨⟨t, f, hf, hp⟩, ⟨as, hu⟩, fun g hg => ?_⟩
      obtain ⟨n, hn, hrep⟩ := h.missed g hg
      exact ⟨n, hn, heq ▸ hreported hrep⟩
    refine ⟨us, d, hfront, heq, fun t => ?_⟩
    rw [← hfront.miss_iff, Furthest.mem_expected_ofMisses, heq]
    constructor
    · intro hmem
      exact hform _ hmem heq.symm
    · intro ⟨g, hg, hgm⟩
      obtain ⟨n, hn, hrep⟩ := h.missed g hg
      obtain rfl := hgm.unique hn
      rcases hrep with hmem | ⟨k, hk, hlt⟩
      · exact hmem
      · have hle := hreported (.inl hk)
        have : (d.front.offset : Int) < k.offset := hlt
        omega

/-! ## Viable prefixes are what can be followed -/

theorem Follows.rest_front {s : Text} {ts : List Terminal} {as : List Token} {d : Cursor}
    (h : Follows (.start s) ts as d) : d.front.rest = s.drop d.front.offset := by
  obtain ⟨p, rest, rfl, -, rfl⟩ := Follows.stretch (b := []) h
  obtain ⟨u, r, rfl, hu, hr⟩ := Cursor.exists_blanks rest
  rw [Cursor.front_behind hu hr, List.nil_append, ← List.append_assoc]
  exact List.drop_left.symm

theorem viableAt_of_follows {s : Text} {ts : List Terminal} {as : List Token} {d : Cursor}
    (h : Follows (.start s) ts as d) (hv : Viable ts) : ViableAt s d.front.offset ts := by
  obtain ⟨p, rest, rfl, hp, rfl⟩ := Follows.stretch (b := []) h
  obtain ⟨u, r, rfl, hu, hr⟩ := Cursor.exists_blanks rest
  rw [Cursor.front_behind hu hr, List.nil_append]
  have hoffset : (Cursor.behind (p ++ u) r).offset = (p ++ u).length := rfl
  rw [hoffset, ← List.append_assoc]
  exact ⟨by simp, hv, as, ⟨p, u, hp, hu, List.take_left⟩, h.terminals⟩

theorem ViableAt.exists_follows {s : Text} {k : Nat} {ts : List Terminal} (h : ViableAt s k ts) :
    ∃ gs : List (List Terminal), (∀ g ∈ gs, g ∈ forms) ∧ ∃ part t, Begins part t ∧ ts = gs.flatten ++ part ∧
      ∃ bs d, Follows (.start s) ts bs d ∧ k ≤ d.front.offset := by
  obtain ⟨hk, hv, as, ⟨p, u, hp, hu, hs⟩, rfl⟩ := h
  obtain ⟨gs, hgs, part, t, hb, heq⟩ := viable_iff.mp hv
  have hchain := isChain_of_begins hgs hb
  rw [← heq] at hchain
  obtain ⟨bs, d, hfollow, hle⟩ := hp.overtaken hchain hu (s.drop k)
  rw [← hs, List.take_append_drop] at hfollow
  refine ⟨gs, hgs, part, t, hb, heq, bs, d, hfollow, ?_⟩
  have hlen := congrArg List.length hs
  rw [List.length_take, List.length_append] at hlen
  simp only [List.length_nil] at hle
  omega

/-! ## Rejected sources -/

theorem Rule.read_eq_error {α : Type} {r : Rule Cursor α} {s : Text} {e : SyntaxError} (h : r.read s = .error e) :
    (r (.start s)).value = none ∧
      e = .ofFurthest s (r (.start s)).stop.offset (Furthest.ofMisses (r (.start s)).misses) := by
  unfold Rule.read at h
  cases hv : (r (.start s)).value with
  | none =>
    simp only [hv, Except.error.injEq] at h
    exact ⟨rfl, h.symm⟩
  | some a => simp [hv] at h

theorem SyntaxError.ofFurthest_of_nonneg {s : Text} {n : Int} {f : Furthest} (h : 0 ≤ f.offset) :
    ofFurthest s n f = ⟨s, f.offset, f.expected⟩ := if_neg (Int.not_lt.mpr h)

/-- What is reported of a rejected source, told from the misses of its chain. -/
theorem read_path_error {s : Text} {e : SyntaxError} (h : Rule.path.read s = .error e) {last place : Cursor}
    {part : List Terminal} (hrun : Run (.start s) (Rule.linksOf Alternative.standard (Cursor.start s)).links last)
    (hfront : Front last part place) {f : Furthest}
    (hf : f = Furthest.ofMisses (Rule.linksOf Alternative.standard (Cursor.start s)).misses)
    (hoffset : f.offset = place.front.offset) :
    e.source = s ∧ e.offset = place.front.offset ∧ ∀ t, t ∈ e.expected ↔ t ∈ f.expected ∨ t = .endOfInput ∧
      last.front.offset = place.front.offset ∧
      ∃ d : Chain, Follows (.start s) (d.word.map Token.terminal) d.word last := by
  obtain ⟨hvalue, rfl⟩ := Rule.read_eq_error h
  have hlast := hfront.last_le
  rw [Rule.fold_last_iff hrun]
  have hnone : (Rule.pathOf Alternative.standard (Cursor.start s)).value = none := hvalue
  rcases Rule.pathOf_none hnone with ⟨hnil, hms⟩ | ⟨hne, hms⟩
  · have hpath : (Rule.path (Cursor.start s)).misses = _ := hms
    rw [hpath, ← hf, SyntaxError.ofFurthest_of_nonneg (by omega)]
    exact ⟨rfl, hoffset, by simp [hnil]⟩
  · have hpath : (Rule.path (Cursor.start s)).misses = _ := hms
    have hstop := Rule.fold_stop hrun
    generalize (Rule.fold (Cursor.start s) (Rule.linksOf Alternative.standard (Cursor.start s)).links).2 = stop
      at hpath hstop ⊢
    have hle : stop.front.offset ≤ last.front.offset := by
      rcases hstop with rfl | hlt
      · exact Nat.le_refl _
      · exact Nat.le_of_lt hlt
    have hreach : (stop.front.offset : Int) ≤ f.offset := by omega
    have hmax : (f.note ⟨stop.front.offset, .endOfInput⟩).offset = f.offset := Furthest.offset_note_of_le hreach
    rw [hpath, Furthest.ofMisses_concat, ← hf, SyntaxError.ofFurthest_of_nonneg (by omega)]
    refine ⟨rfl, hmax.trans hoffset, fun t => ?_⟩
    show t ∈ (f.note ⟨stop.front.offset, .endOfInput⟩).expected ↔ _
    rw [Furthest.mem_expected_note_of_le t hreach, hoffset]
    constructor
    · rintro (ht | ⟨heq, ht⟩)
      · exact .inl ht
      · have heq : stop.front.offset = place.front.offset := Int.ofNat_inj.mp heq
        rcases hstop with rfl | hlt
        · exact .inr ⟨ht, heq, hne, rfl⟩
        · omega
    · rintro (ht | ⟨ht, heq, -, rfl⟩)
      · exact .inl ht
      · exact .inr ⟨congrArg Int.ofNat heq, ht⟩

theorem derivable_iff_follows {c last place : Cursor} {fs : List (List Terminal)} (hfs : ∀ f ∈ fs, f ∈ forms)
    {as : List Token} (hf : Follows c fs.flatten as last) {part : List Terminal} (hfront : Front last part place) :
    Derivable (fs.flatten ++ part) ↔ last.front.offset = place.front.offset ∧
      ∃ d : Chain, Follows c (d.word.map Token.terminal) d.word last := by
  obtain ⟨t, ht⟩ := hfront.begins
  obtain ⟨bs, hfollow⟩ := hfront.follows
  constructor
  · intro h
    obtain ⟨rfl, gs, g, hg, rfl⟩ := (derivable_forms_iff hfs ht).mp h
    cases hfollow
    have hw : as.map Token.terminal = gs.flatten ++ g := by rw [hf.terminals]; simp
    obtain ⟨d, rfl⟩ := Derivation.exists_chain (fun f hf => hfs f (by simp [hf])) hg hw
    exact ⟨rfl, d, hf.terminals ▸ hf⟩
  · intro ⟨heq, d, hd⟩
    have hnil : part = [] := by
      by_contra hne
      have := hfollow.front_lt hne
      have := place.le_front
      omega
    obtain ⟨gs, hgs, hgw⟩ := d.exists_forms
    rw [hgw] at hd
    refine ⟨.rule d, ?_⟩
    rw [hnil, List.append_nil, flatten_unique hfs hgs hf hd]
    exact hgw

/-- A rejected source is rejected at the end of its longest viable prefix, for want of what may come next in a path. -/
theorem rejection_exact (s : Text) (e : SyntaxError) (h : Rule.path.read s = .error e) :
    e.source = s ∧ ∃ k ≤ s.length, e.offset = k ∧ (∃ ts, ViableAt s k ts) ∧ (∀ k' ts, ViableAt s k' ts → k' ≤ k) ∧
      (∀ ts, ViableAt s k ts → ∀ t, t ∈ e.expected ↔ Viable (ts ++ [t]) ∨ t = .endOfInput ∧ Derivable ts) ∧
      (∃ t, t ∈ e.expected) ∧ ∀ t ∈ e.expected, t.lexeme? (s.drop k) = none := by
  obtain ⟨last, hrun, hstuck⟩ := Rule.linksOf_run Alternative.mem_standard (Cursor.start s)
  obtain ⟨part, place, hfront, hoffset, hexpected⟩ := hstuck.exists_front
  obtain ⟨hsource, heq, hmem⟩ := read_path_error h hrun hfront rfl hoffset
  obtain ⟨fs, hfs, as, hf⟩ := hrun.follows
  obtain ⟨next, hnext⟩ := hfront.begins
  obtain ⟨bs, hfollow⟩ := hfront.follows
  have hall := hf.append hfollow
  have hviable := viableAt_of_follows hall (viable_iff.mpr ⟨fs, hfs, part, next, hnext, rfl⟩)
  have hle : ∀ k ts, ViableAt s k ts → k ≤ place.front.offset ∧ (k = place.front.offset → ts = fs.flatten ++ part) := by
    intro k ts hk
    obtain ⟨gs, hgs, vs, t, hb, rfl, cs, d, hd, hkd⟩ := hk.exists_follows
    obtain ⟨hle, heq⟩ := hfront.viable_le hfs hgs hf hb hd
    exact ⟨Nat.le_trans hkd hle, fun hk => heq (Nat.le_antisymm hle (hk ▸ hkd))⟩
  refine ⟨hsource, place.front.offset, hviable.1, heq, ⟨_, hviable⟩, fun k ts hk => (hle k ts hk).1, ?_, ?_, ?_⟩
  · intro ts hts t
    rw [(hle _ ts hts).2 rfl, hmem, hexpected, viable_next_iff hfs hnext, derivable_iff_follows hfs hf hfront]
  · exact ⟨next, (hmem next).mpr (.inl ((hexpected next).mpr hnext))⟩
  · intro t ht
    rw [← hall.rest_front]
    rcases (hmem t).mp ht with ht | ⟨rfl, heq, d, hd⟩
    · exact (Cursor.take_error (hfront.exists_miss ((hexpected t).mp ht)).1).2
    · rw [hall.rest_front, ← heq, ← hd.rest_front]
      simp only [Terminal.lexeme?, ite_eq_right_iff, reduceCtorEq, imp_false]
      intro hend
      obtain ⟨p, u, hs, hp, rfl⟩ := Follows.stretch (b := []) hd
      obtain ⟨t, ht, -⟩ := read_path_complete (.rule d) ⟨p, u, hp, Cursor.blank_of_rest_front hend, hs⟩
      rw [h] at ht
      cases ht

theorem rejection_exact_of_dot :
    Rule.path.read "$." = .error ⟨"$.", 2, .ofList [Mark.leftBracket, Mark.star, Atom.key]⟩ ∧
      (∀ k ts, ViableAt "$." k ts → k ≤ 2) ∧
      ∀ ts, ViableAt "$." 2 ts → ∀ t, t ∈ TerminalSet.ofList [Mark.leftBracket, Mark.star, Atom.key] ↔
        Viable (ts ++ [t]) ∨ t = .endOfInput ∧ Derivable ts := by
  have h : Rule.path.read "$." = .error ⟨"$.", 2, .ofList [Mark.leftBracket, Mark.star, Atom.key]⟩ := by
    decide +kernel
  obtain ⟨-, k, -, heq, -, hle, hexpected, -⟩ := rejection_exact "$." _ h
  obtain rfl : 2 = k := Int.ofNat_inj.mp heq
  exact ⟨h, hle, hexpected⟩

end JsonPath
