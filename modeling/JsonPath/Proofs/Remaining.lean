/-
  JsonPath.Proofs.Remaining — reading goes by what remains, and by nothing before it.

  A text in front of a source moves every offset by its length and changes nothing else
  about what is read and what is missed. Lines and columns are not moved but told anew,
  from the longer text. So a session behind a text (`Session.behind`) does what the session
  without it does, whatever is done in it. Two things need care. A record without a miss
  stands at `-1`, which is no offset and does not move. And a look ahead by a negative
  count sees what is before, so `peek` is left out.

  A rule that starts before blanks comes to the same as behind them, but for where it goes
  back to. So blanks in front of a source, too, only move what is read and missed.

  Proved:
  - `Session.perform_behind` and from it `Session.performAll_behind`: an operation and
    operations in turn, behind a text.
  - `Goal.read_blanks_ok`, `Goal.read_blanks_error`: a whole source behind blanks.
  - `remaining_text_decides`.
-/

import JsonPath.Proofs.Lines
import JsonPath.Proofs.Rejection

namespace JsonPath

open scoped Computability
open Lexicon

/-! ## Behind a text -/

/-- The token `n` further on, with its location told from `source`. -/
def Token.moved (source : Text) (n : Nat) (a : Token) : Token :=
  { a with start := n + a.start, stop := n + a.stop, location := .ofOffset source (n + a.start) }

def Miss.moved (n : Nat) (m : Miss) : Miss := { m with offset := n + m.offset }

/-- A record without a miss has no offset to be moved. -/
def Furthest.moved (n : Nat) (f : Furthest) : Furthest := if f.offset < 0 then f else { f with offset := n + f.offset }

def SyntaxError.behind (a : Text) (e : SyntaxError) : SyntaxError := ⟨a ++ e.source, a.length + e.offset, e.expected⟩

/-- The same outcome where the source stands behind `a`. -/
def Outcome.behind (a source : Text) : Outcome → Outcome
  | position offset => position (a.length + offset)
  | token t => token (t.moved (a ++ source) a.length)
  | tree t => tree (t.map (.moved (a ++ source) a.length))
  | trees ts => trees (ts.map (.map (.moved (a ++ source) a.length)))
  | error (.malformed e) => error (.malformed (e.behind a))
  | o => o

def Operation.moved (n : Nat) : Operation → Operation
  | .seek offset => .seek (n + offset)
  | op => op

def Session.behind (a : Text) (s : Session) : Session := ⟨a ++ s.source, a.length + s.offset, s.furthest.moved a.length⟩

/-! ### Misses -/

namespace Furthest

variable {n : Nat} {f : Furthest}

theorem moved_of_nonneg (h : 0 ≤ f.offset) : f.moved n = ⟨n + f.offset, f.expected⟩ := if_neg (Int.not_lt.mpr h)

theorem note_of_lt {m : Miss} (h : f.offset < m.offset) : f.note m = ⟨m.offset, .insert m.wanted ∅⟩ := if_pos h

theorem note_of_eq {m : Miss} (h : f.offset = m.offset) : f.note m = ⟨f.offset, .insert m.wanted f.expected⟩ := by
  rw [note, if_neg (by omega), if_pos h]

theorem note_of_gt {m : Miss} (h : m.offset < f.offset) : f.note m = f := by
  rw [note, if_neg (by omega), if_neg (by omega)]

theorem note_moved {m : Miss} (h : 0 ≤ m.offset) (f : Furthest) : (f.moved n).note (m.moved n) = (f.note m).moved n := by
  rcases Int.lt_trichotomy f.offset m.offset with hlt | heq | hgt
  · have hmoved : (f.moved n).offset < (m.moved n).offset := by
      show _ < n + m.offset
      unfold moved
      split
      · omega
      · show n + f.offset < n + m.offset
        omega
    rw [note_of_lt hlt, note_of_lt hmoved, moved_of_nonneg h]
    rfl
  · have hf : 0 ≤ f.offset := by omega
    have hmoved : n + f.offset = (m.moved n).offset := congrArg ((n : Int) + ·) heq
    rw [note_of_eq heq, moved_of_nonneg hf, note_of_eq hmoved]
    exact (moved_of_nonneg (f := ⟨f.offset, .insert m.wanted f.expected⟩) hf).symm
  · have hf : 0 ≤ f.offset := by omega
    have hmoved : (m.moved n).offset < n + f.offset := Int.add_lt_add_left hgt n
    rw [note_of_gt hgt, moved_of_nonneg hf, note_of_gt hmoved]

theorem noteAll_moved {ms : List Miss} (h : ∀ m ∈ ms, 0 ≤ m.offset) (f : Furthest) :
    (f.moved n).noteAll (ms.map (.moved n)) = (f.noteAll ms).moved n := by
  induction ms generalizing f with
  | nil => rfl
  | cons m ms ih =>
    rw [List.forall_mem_cons] at h
    have hnote := note_moved (n := n) h.1 f
    have hrest := ih h.2 (f.note m)
    rw [← hnote] at hrest
    exact hrest

end Furthest

theorem SyntaxError.ofFurthest_behind (a source : Text) (offset : Int) (f : Furthest) :
    ofFurthest (a ++ source) (a.length + offset) (f.moved a.length) = (ofFurthest source offset f).behind a := by
  by_cases hf : f.offset < 0
  · simp only [ofFurthest, Furthest.moved, if_pos hf, behind]
  · have hnonneg : 0 ≤ f.offset := Int.not_lt.mp hf
    have hmoved : ¬ (a.length + f.offset : Int) < 0 := by omega
    simp only [ofFurthest, Furthest.moved_of_nonneg hnonneg, if_neg hf, if_neg hmoved, behind]

theorem slice_behind (a xs : Text) {i j : Int} (hi : 0 ≤ i) (hj : 0 ≤ j) :
    slice (a ++ xs) (a.length + i) (a.length + j) = slice xs i j := by
  obtain ⟨m, rfl⟩ := Int.eq_ofNat_of_zero_le hi
  obtain ⟨n, rfl⟩ := Int.eq_ofNat_of_zero_le hj
  rw [← Int.natCast_add, ← Int.natCast_add, slice_ofNat, slice_ofNat, List.drop_append,
    List.drop_eq_nil_of_le (Nat.le_add_right _ _), List.nil_append, Nat.add_sub_cancel_left, Nat.add_sub_add_left]

/-- What stands at the offset of an error stands there behind a text, too. -/
theorem SyntaxError.found_behind (a : Text) {e : SyntaxError} (h : 0 ≤ e.offset) : (e.behind a).found = e.found := by
  simp only [found, behind]
  rw [Int.add_assoc, slice_behind a e.source h (by omega)]

/-! ### Places -/

theorem Token.moved_behind (a before rest w : Text) (t : Terminal) :
    (Token.behind before t w).moved (a ++ (before ++ rest)) a.length = .behind (a ++ before) t w := by
  have hlength : (a.length + before.length : Int) = ((a ++ before).length : Nat) := by
    rw [List.length_append, Int.natCast_add]
  have hlocation := Location.ofOffset_append (a ++ before) rest
  rw [List.append_assoc] at hlocation
  simp only [moved, behind, hlength, hlocation, ← Int.add_assoc]

namespace Cursor

theorem probe_behind {t : Terminal} {w r : Text} (h : t.lexeme? (w ++ r) = some w) (b : Text) :
    (behind b (w ++ r)).probe t = ⟨some (.behind b t w), behind (b ++ w) r, []⟩ := by
  have hrest : (behind b (w ++ r)).rest = w ++ r := rfl
  unfold probe
  rw [hrest, h]
  simp only [advance_behind]
  simp [behind, Token.behind]

end Cursor

/-- Places between two parts of a source, without and with a text in front of it. -/
def Simulation.behind (a source : Text) : Simulation Cursor Cursor where
  place c d := ∃ p r, source = p ++ r ∧ c = .behind p r ∧ d = .behind (a ++ p) r
  token := .moved (a ++ source) a.length
  misses ms ns := ns = ms.map (.moved a.length) ∧ ∀ m ∈ ms, 0 ≤ m.offset
  nil := ⟨rfl, List.forall_mem_nil _⟩
  append := by
    rintro _ _ _ _ ⟨rfl, hms⟩ ⟨rfl, hms'⟩
    exact ⟨List.map_append.symm, List.forall_mem_append.mpr ⟨hms, hms'⟩⟩

namespace Simulation

variable {a source : Text}

theorem place_seek {pos : Nat} (hpos : pos ≤ source.length) :
    (behind a source).place (.seek source pos) (.seek (a ++ source) (a.length + pos)) := by
  have hlength : (a ++ source.take pos).length = a.length + pos := by
    rw [List.length_append, List.length_take_of_le hpos]
  have hseek := Cursor.seek_append (a ++ source.take pos) (source.drop pos)
  rw [List.append_assoc, List.take_append_drop, hlength] at hseek
  exact ⟨_, _, (List.take_append_drop pos source).symm, Cursor.seek_of_le hpos, hseek⟩

theorem behind_probe (t : Terminal) : (behind a source).Alike (behind a source).token (Rule.probe t) (Rule.probe t) := by
  rintro _ _ ⟨p, r, hsource, rfl, rfl⟩
  show (behind a source).Replies _ ((Cursor.behind p r).probe t) ((Cursor.behind (a ++ p) r).probe t)
  cases h : t.lexeme? r with
  | none =>
    have hmiss : ∀ b : Text, (Cursor.behind b r).probe t = ⟨none, .behind b r, [⟨b.length, t⟩]⟩ := by
      intro b
      have hrest : (Cursor.behind b r).rest = r := rfl
      rw [Cursor.probe, hrest, h]
      rfl
    rw [hmiss, hmiss]
    refine ⟨rfl, ⟨p, r, hsource, rfl, rfl⟩, ?_, List.forall_mem_singleton.mpr (Int.natCast_nonneg _)⟩
    simp only [List.map_cons, List.map_nil, Miss.moved, List.length_append, Int.natCast_add]
  | some w =>
    obtain ⟨r, rfl⟩ := Terminal.lexeme?_isPrefix h
    rw [Cursor.probe_behind h, Cursor.probe_behind h, ← Token.moved_behind a p (w ++ r) w t, ← hsource]
    refine ⟨rfl, ⟨p ++ w, r, ?_, rfl, ?_⟩, (behind a source).nil⟩
    · rw [hsource, List.append_assoc]
    · rw [List.append_assoc]

theorem behind_blanks : (behind a source).Alike id Rule.blanks Rule.blanks := by
  rintro _ _ ⟨p, r, hsource, rfl, rfl⟩
  show (behind a source).Replies _ (Cursor.behind p r).blanks (Cursor.behind (a ++ p) r).blanks
  obtain ⟨rest, hrest⟩ := Lexeme.blanks_isPrefix r
  have hstop : ∀ b : Text, (Cursor.behind b r).advance (Lexeme.blanks r).length = .behind (b ++ Lexeme.blanks r) rest := by
    intro b
    have hadvance := Cursor.advance_behind b (Lexeme.blanks r) rest
    rwa [hrest] at hadvance
  refine ⟨rfl, ⟨p ++ Lexeme.blanks r, rest, ?_, hstop p, ?_⟩, (behind a source).nil⟩
  · rw [hsource, List.append_assoc, hrest]
  · rw [← List.append_assoc]
    exact hstop (a ++ p)

theorem behind_faithful (a source : Text) : (behind a source).Faithful := ⟨behind_probe, behind_blanks⟩

theorem behind_outcomes (a source : Text) : (behind a source).Outcomes (.behind a source) :=
  ⟨fun _ => rfl, fun _ => rfl, fun _ => rfl, fun _ => rfl, rfl⟩

end Simulation

/-! ## Operations -/

/-- Whether an operation leaves a session in a source of that length, and looks at nothing before. -/
def Operation.StaysInside (length : Nat) : Operation → Prop
  | .seek offset => 0 ≤ offset ∧ offset ≤ length
  | .peek _ => False
  | _ => True

def Session.Inside (s : Session) : Prop := 0 ≤ s.offset ∧ s.offset ≤ s.source.length

/-- The second reply is the first one where the source stands behind `a`, and stays in the source. -/
structure Reply.Behind (a source : Text) (r r' : Reply Int Outcome) : Prop where
  value : r'.value = r.value.map (.behind a source)
  stop : r'.stop = a.length + r.stop
  misses : r'.misses = r.misses.map (.moved a.length)
  inside : 0 ≤ r.stop ∧ r.stop ≤ source.length
  nonneg : ∀ m ∈ r.misses, 0 ≤ m.offset

theorem Call.behind (a : Text) {source : Text} {pos : Nat} (hpos : pos ≤ source.length) (c : Call) :
    Reply.Behind a source (c.rule (Cursor.seek source pos)).atOffset
      (c.rule (Cursor.seek (a ++ source) (a.length + pos))).atOffset := by
  obtain ⟨hvalue, ⟨p, r, hsource, hstop, hstop'⟩, hmisses, hnonneg⟩ :=
    (Simulation.behind_faithful a source).call (Simulation.behind_outcomes a source) c (Simulation.place_seek hpos)
  have hlength := congrArg List.length hsource
  rw [List.length_append] at hlength
  refine ⟨hvalue, ?_, hmisses, ?_, hnonneg⟩
  · show Place.offset _ = _ + Place.offset _
    rw [hstop, hstop']
    show ((a ++ p).length : Int) = a.length + p.length
    rw [List.length_append, Int.natCast_add]
  · show 0 ≤ Place.offset _ ∧ Place.offset _ ≤ _
    rw [hstop]
    show 0 ≤ (p.length : Int) ∧ (p.length : Int) ≤ source.length
    omega

namespace Session

theorem error_behind (a : Text) (s : Session) : (s.behind a).error = s.error.behind a :=
  SyntaxError.ofFurthest_behind a s.source s.offset s.furthest

theorem reply_behind (a : Text) {s : Session} (hs : s.Inside) {op : Operation} (hop : op.StaysInside s.source.length) :
    (s.reply op).Behind a s.source ((s.behind a).reply (op.moved a.length)) := by
  obtain ⟨hnonneg, hle⟩ := hs
  have hlength : ((a ++ s.source).length : Int) = a.length + s.source.length := by
    rw [List.length_append, Int.natCast_add]
  cases op with
  | seek offset => exact ⟨rfl, rfl, rfl, hop, List.forall_mem_nil _⟩
  | position => exact ⟨rfl, rfl, rfl, ⟨hnonneg, hle⟩, List.forall_mem_nil _⟩
  | peek => cases hop
  | advance count =>
    cases count with
    | ofNat n =>
      refine ⟨?_, ?_, rfl, ?_, List.forall_mem_nil _⟩
      · show some (Outcome.text (slice (a ++ s.source) (a.length + s.offset) (a.length + s.offset + n))) = some (.text _)
        rw [Int.add_assoc, slice_behind a s.source hnonneg (by omega)]
      · show min (a.length + s.offset + n) ((a ++ s.source).length : Int) = a.length + min (s.offset + n) _
        omega
      · show 0 ≤ min (s.offset + n) (s.source.length : Int) ∧ min (s.offset + n) (s.source.length : Int) ≤ _
        omega
    | negSucc => exact ⟨rfl, rfl, rfl, ⟨hnonneg, hle⟩, List.forall_mem_nil _⟩
  | isAtEnd =>
    refine ⟨?_, rfl, rfl, ⟨hnonneg, hle⟩, List.forall_mem_nil _⟩
    show some (Outcome.truth (((a ++ s.source).length : Int) ≤ a.length + s.offset)) = some (.truth _)
    rw [hlength, decide_eq_decide.mpr (Int.add_le_add_iff_left _)]
  | miss t => exact ⟨rfl, rfl, rfl, ⟨hnonneg, hle⟩, List.forall_mem_singleton.mpr hnonneg⟩
  | error =>
    refine ⟨?_, rfl, rfl, ⟨hnonneg, hle⟩, List.forall_mem_nil _⟩
    exact congrArg (fun e => some (Outcome.error (.malformed e))) (error_behind a s)
  | call c =>
    obtain ⟨source, offset, furthest⟩ := s
    obtain ⟨pos, rfl⟩ := Int.eq_ofNat_of_zero_le hnonneg
    have hcall := Call.behind a (Int.ofNat_le.mp hle) c
    have hreply := reply_call (a ++ source) (a.length + pos) (furthest.moved a.length) c
    rw [← reply_call source pos furthest, ← hreply, Int.natCast_add] at hcall
    exact hcall

theorem after_behind {a : Text} {s : Session} {r r' : Reply Int Outcome} (h : r.Behind a s.source r') :
    (s.behind a).after r' = (s.after r).behind a := by
  have hfurthest := Furthest.noteAll_moved (n := a.length) h.nonneg s.furthest
  rw [← h.misses] at hfurthest
  simp only [after, behind, h.stop, hfurthest]

theorem readsWhole_moved (n : Nat) (op : Operation) : (op.moved n).readsWhole = op.readsWhole := by
  cases op with
  | call c => rfl
  | _ => rfl

/-- What an operation does behind a text: the same, further on. -/
theorem perform_behind (a : Text) {s : Session} (hs : s.Inside) {op : Operation} (hop : op.StaysInside s.source.length) :
    (s.behind a).perform (op.moved a.length) = Prod.map (.behind a s.source) (.behind a) (s.perform op) := by
  have hreply := reply_behind a hs hop
  have hafter := after_behind hreply
  unfold perform
  simp only
  rw [hafter, hreply.value, readsWhole_moved, error_behind]
  cases (s.reply op).value with
  | some o => rfl
  | none =>
    cases op.readsWhole with
    | true => rfl
    | false => rfl

theorem inside_perform {s : Session} (hs : s.Inside) {op : Operation} (hop : op.StaysInside s.source.length) :
    (s.perform op).2.Inside := by
  rw [perform_snd]
  exact (reply_behind [] hs hop).inside

theorem source_perform (s : Session) (op : Operation) : (s.perform op).2.source = s.source := by
  rw [perform_snd]
  rfl

/-- What operations in turn do behind a text. -/
theorem performAll_behind (a : Text) {s : Session} (hs : s.Inside) {ops : List Operation}
    (hops : ∀ op ∈ ops, op.StaysInside s.source.length) :
    (s.behind a).performAll (ops.map (.moved a.length)) =
      (s.performAll ops).map (Prod.map (.behind a s.source) (.behind a)) := by
  induction ops generalizing s with
  | nil => rfl
  | cons op ops ih =>
    rw [List.forall_mem_cons] at hops
    have hstep := perform_behind a hs hops.1
    have hsource := source_perform s op
    have hrest := ih (inside_perform hs hops.1) (by rw [hsource]; exact hops.2)
    rw [hsource] at hrest
    simp only [List.map_cons, performAll, hstep]
    exact congrArg (_ :: ·) hrest

end Session

/-! ## Behind blanks -/

/-- Places that are the same behind any blanks. -/
def Simulation.sameFront : Simulation Cursor Cursor where
  place c d := c.front = d.front
  token := id
  misses ms ns := ms = ns
  nil := rfl
  append := by
    rintro _ _ _ _ rfl rfl
    rfl

theorem Cursor.take_congr {c d : Cursor} (h : c.front = d.front) (t : Terminal) : c.take t = d.take t := by
  simp only [take, h]

theorem Simulation.sameFront_takes : sameFront.Takes := by
  intro t c d hcd
  rw [Rule.spaced_probe, Rule.spaced_probe, Cursor.take_congr hcd]
  cases d.take t with
  | error m => exact ⟨rfl, hcd, rfl⟩
  | ok p => exact ⟨rfl, rfl, rfl⟩

theorem Cursor.front_start {w : Text} (hw : w ∈ blank∗) (s : Text) :
    (start (w ++ s)).front = (behind w s).front := by
  obtain ⟨u, r, rfl, hu, hr⟩ := exists_blanks s
  have hstart := front_behind (b := []) (star_append_mem_star hw hu) hr
  rw [List.append_assoc] at hstart
  exact hstart.trans (front_behind hu hr).symm

namespace Rule

/-- Without a value there is a miss. -/
def Reports {α : Type} (r : Rule Cursor α) : Prop := ∀ c, (r c).value = none → (r c).misses ≠ []

theorem reports_take (t : Terminal) : Reports (spaced (probe t)) := by
  intro c h
  rw [spaced_probe] at h ⊢
  cases htake : c.take t with
  | error m => exact List.cons_ne_nil _ _
  | ok p =>
    rw [htake] at h
    cases h

theorem reports_pure {α : Type} (a : α) : Reports (Pure.pure a : Rule Cursor α) := fun _ h => nomatch h

theorem reports_bind {α β : Type} {r : Rule Cursor α} {f : α → Rule Cursor β} (hr : Reports r)
    (hf : ∀ a, Reports (f a)) : Reports (r >>= f) := by
  intro c
  have hmisses := hr c
  show (bind r f c).value = none → (bind r f c).misses ≠ []
  unfold bind
  generalize r c = reply at hmisses ⊢
  obtain ⟨value, stop, ms⟩ := reply
  cases value with
  | none => exact fun _ => hmisses rfl
  | some a => exact fun h hnil => hf a stop h (List.append_eq_nil_iff.mp hnil).2

theorem reports_chain : Reports chain := by
  intro c _
  obtain ⟨last, -, hstuck⟩ := linksOf_run Alternative.mem_standard c
  obtain ⟨m, -, hreported⟩ := hstuck.missed _ (List.mem_cons_self ..)
  obtain ⟨n, hn, -⟩ := hreported.exists_le
  have hchain := chainOf_eq Alternative.standard c
  simp only at hchain
  rw [chain, hchain]
  exact List.ne_nil_of_mem hn

theorem reports_anchored {α : Type} {r : Rule Cursor α} (hr : Reports r) : Reports (anchored r) :=
  reports_bind hr fun _ => reports_bind (reports_take _) fun _ => reports_pure _

theorem reports_goal (goal : Goal) : Reports goal.rule := by
  cases goal with
  | path => exact reports_bind (reports_anchored reports_chain) fun _ => reports_pure _
  | sign => exact reports_anchored (reports_bind (reports_take _) fun _ => reports_pure _)
  | number => exact reports_anchored (reports_bind (reports_take _) fun _ => reports_pure _)

end Rule

namespace Goal

variable {w : Text}

/-- What a goal finds and misses behind blanks. -/
theorem reply_blanks (hw : w ∈ blank∗) (goal : Goal) (s : Text) :
    let r := goal.rule (.start s)
    let r' := goal.rule (.start (w ++ s))
    r'.value = r.value.map (.map (.moved (w ++ s) w.length)) ∧ r'.misses = r.misses.map (.moved w.length) ∧
      ∀ m ∈ r.misses, 0 ≤ m.offset := by
  intro r r'
  have hplace : (Simulation.behind w s).place (.start s) (.behind w s) := ⟨[], s, rfl, rfl, by rw [List.append_nil]⟩
  have hbehind := (Simulation.behind_faithful w s).takes.goal goal hplace
  have hfront := Simulation.sameFront_takes.goal goal (Cursor.front_start hw s)
  have hvalue : (goal.rule (.behind w s)).value = r'.value := by
    rw [hfront.value, funext (Simulation.tree_id rfl), Option.map_id']
  obtain ⟨hmoved, hnonneg⟩ := hbehind.misses
  exact ⟨hvalue.symm.trans hbehind.value, hfront.misses.trans hmoved, hnonneg⟩

theorem read_blanks_ok (hw : w ∈ blank∗) {goal : Goal} {s : Text} {t : Tree Token} (h : goal.rule.read s = .ok t) :
    goal.rule.read (w ++ s) = .ok (t.map (.moved (w ++ s) w.length)) := by
  obtain ⟨hvalue, -, -⟩ := reply_blanks hw goal s
  rw [Rule.read_eq_ok_iff] at h ⊢
  rw [hvalue, h]
  rfl

theorem read_blanks_error (hw : w ∈ blank∗) {goal : Goal} {s : Text} {e : SyntaxError}
    (h : goal.rule.read s = .error e) : goal.rule.read (w ++ s) = .error (e.behind w) ∧ 0 ≤ e.offset := by
  obtain ⟨hvalue, hmisses, hnonneg⟩ := reply_blanks hw goal s
  obtain ⟨hnone, rfl⟩ := Rule.read_eq_error h
  obtain ⟨m, hm⟩ := List.exists_mem_of_ne_nil _ (Rule.reports_goal goal _ hnone)
  have hoffset : 0 ≤ (Furthest.ofMisses (goal.rule (.start s)).misses).offset :=
    Int.le_trans (hnonneg m hm) (Furthest.le_offset_noteAll .start _ hm)
  have hrecord := Furthest.noteAll_moved (n := w.length) hnonneg .start
  rw [← hmisses] at hrecord
  have hfurthest : Furthest.ofMisses (goal.rule (.start (w ++ s))).misses = _ :=
    hrecord.trans (Furthest.moved_of_nonneg hoffset)
  rw [SyntaxError.ofFurthest_of_nonneg hoffset]
  refine ⟨?_, hoffset⟩
  unfold Rule.read
  simp only [hvalue, hnone, Option.map_none, hfurthest]
  rw [SyntaxError.ofFurthest_of_nonneg (Int.add_nonneg (Int.natCast_nonneg _) hoffset)]
  rfl

end Goal

/-- From a place in a source, a call comes to the same whatever text is in front of the source: it finds and misses the
    same, at offsets that are further on by the length of that text, and the session ends up as much further on. So do
    operations in turn. A whole source with blanks in front is read, or is no expression, as it is without them. Lines
    and columns are those in the longer text. -/
theorem remaining_text_decides (a b : Text) :
    (∀ pos ≤ b.length, ∀ c : Call,
      (⟨a ++ b, a.length + pos, .start⟩ : Session).perform (.call c) =
        Prod.map (.behind a b) (.behind a) ((⟨b, pos, .start⟩ : Session).perform (.call c))) ∧
    (∀ pos ≤ b.length, ∀ ops : List Operation, (∀ op ∈ ops, op.StaysInside b.length) →
      (⟨a ++ b, a.length + pos, .start⟩ : Session).performAll (ops.map (.moved a.length)) =
        ((⟨b, pos, .start⟩ : Session).performAll ops).map (Prod.map (.behind a b) (.behind a))) ∧
    ∀ w ∈ blank∗, ∀ goal : Goal,
      (∀ t, goal.rule.read b = .ok t → goal.rule.read (w ++ b) = .ok (t.map (.moved (w ++ b) w.length))) ∧
      ∀ e, goal.rule.read b = .error e → goal.rule.read (w ++ b) = .error (e.behind w) ∧ (e.behind w).found = e.found := by
  have hinside : ∀ pos ≤ b.length, (⟨b, pos, .start⟩ : Session).Inside :=
    fun pos hpos => ⟨Int.natCast_nonneg pos, Int.ofNat_le.mpr hpos⟩
  refine ⟨fun pos hpos c => ?_, fun pos hpos ops hops => ?_, fun w hw goal => ⟨fun t ht => ?_, fun e he => ?_⟩⟩
  · have hstays : (Operation.call c).StaysInside b.length := trivial
    exact Session.perform_behind a (hinside pos hpos) hstays
  · exact Session.performAll_behind a (hinside pos hpos) hops
  · exact Goal.read_blanks_ok hw ht
  · obtain ⟨hread, hoffset⟩ := Goal.read_blanks_error hw he
    exact ⟨hread, SyntaxError.found_behind w hoffset⟩

theorem remaining_text_decides_of_line_feed :
    (⟨"x\n$.a[", 2, .start⟩ : Session).perform (.call (.run .chain)) =
      (.trees [.node .root [], .node .field [.node .bareKey [.leaf ⟨Atom.key, "a", 4, 5, ⟨2, 3⟩⟩]]],
        ⟨"x\n$.a[", 5, 6, .ofList [Mark.star, Atom.quoted, Atom.unsigned]⟩) ∧
    ((⟨"x\n$.a[", 2, .start⟩ : Session).performAll [.seek 4, .call (.probe Atom.key), .isAtEnd]).map Prod.fst =
      [.nothing, .token ⟨Atom.key, "a", 4, 5, ⟨2, 3⟩⟩, .truth false] ∧
    Goal.path.rule.read "\r\n $.a[" = .error ⟨"\r\n $.a[", 7, .ofList [Mark.star, Atom.quoted, Atom.unsigned]⟩ ∧
    Goal.number.rule.read "\n\t-1" = .ok (.node .number [.leaf ⟨Atom.number, "-1", 2, 4, ⟨2, 2⟩⟩]) := by
  obtain ⟨call, run, blanks⟩ := remaining_text_decides "x\n" "$.a["
  obtain ⟨-, -, blanks'⟩ := remaining_text_decides "x\n" "-1"
  have hpos : 0 ≤ ("$.a[" : Text).length := Nat.zero_le _
  have hops : ∀ op ∈ [Operation.seek 2, .call (.probe Atom.key), .isAtEnd], op.StaysInside ("$.a[" : Text).length := by
    intro op hop
    simp only [List.mem_cons, List.not_mem_nil, or_false] at hop
    rcases hop with rfl | rfl | rfl
    · exact (by decide : (0 : Int) ≤ 2 ∧ (2 : Int) ≤ 4)
    · trivial
    · trivial
  have hread : Goal.path.rule.read "$.a[" = .error ⟨"$.a[", 4, .ofList [Mark.star, Atom.quoted, Atom.unsigned]⟩ := by
    decide +kernel
  have hread' : Goal.number.rule.read "-1" = .ok (.node .number [.leaf ⟨Atom.number, "-1", 0, 2, ⟨1, 1⟩⟩]) := by
    decide +kernel
  have hblanks : ("\r\n " : Text) ∈ blank∗ := blanks_mem "\r\n "
  have hblanks' : ("\n\t" : Text) ∈ blank∗ := blanks_mem "\n\t"
  refine ⟨(call 0 hpos (.run .chain)).trans (by decide +kernel), ?_, ((blanks _ hblanks .path).2 _ hread).1,
    ((blanks' _ hblanks' .number).1 _ hread').trans (by decide +kernel)⟩
  exact (congrArg (List.map Prod.fst) (run 0 hpos _ hops)).trans (by decide +kernel)

end JsonPath
