/-
  JsonPath.Proofs.Scans — the furthest misses of a session are those of its scans.

  A scan looks for one terminal at one place, and finds it or not. What a session scans is
  not part of it: it keeps only the record of what it missed furthest on. To say which
  scans an operation makes, its rule is run once more from a `ProbedCursor`, which tells
  of every probe and not only of those that fail. Nothing else differs: `Logged` is that a
  rule comes to the same from both kinds of place, and that its misses are the probes that
  fail. One kind of place simulates the other, so it is enough to show it of probing and of
  passing blanks (`Simulation.logged_faithful`).

  So whatever an operation does behind a probe that failed, and wherever it goes back to,
  the session notes each scan that failed, where it looked, and no other
  (`furthest_perform`). The main result is what this comes to in a whole run from the
  start of the source, if the session is never sent to before it.

  Proved: `furthest_of_scans`.
-/

import JsonPath.Proofs.Furthest
import JsonPath.Proofs.Simulation

namespace JsonPath

/-! ## Cursors that tell of every probe -/

/-- A cursor from which every probe counts as a miss, also one that finds its terminal. -/
structure ProbedCursor where
  cursor : Cursor

instance : Place ProbedCursor where
  offset c := Place.offset c.cursor
  remaining c := Place.remaining c.cursor
  probe t c :=
    let reply := c.cursor.probe t
    ⟨reply.value, ⟨reply.stop⟩, [⟨c.cursor.offset, t⟩]⟩
  blanks c :=
    let reply := c.cursor.blanks
    ⟨reply.value, ⟨reply.stop⟩, []⟩
  probe_le t c := Place.probe_le t c.cursor
  probe_lt t c := Place.probe_lt t c.cursor
  blanks_le c := Place.blanks_le c.cursor

/-- Whether the terminal is not where it was looked for. -/
def Miss.fails (source : Text) (m : Miss) : Bool := (m.wanted.lexeme? (source.drop m.offset.toNat)).isNone

/-- What remains at the place is what the source has from there. -/
def Cursor.Within (source : Text) (c : Cursor) : Prop := c.rest = source.drop c.offset

theorem Cursor.within_seek (source : Text) (n : Nat) : (seek source n).Within source := rest_seek source n

theorem Cursor.Within.advance {source : Text} {c : Cursor} (h : c.Within source) (n : Nat) :
    (c.advance n).Within source := by
  rw [Within, rest_advance, offset_advance, h, List.drop_drop, List.length_drop]
  rcases Nat.le_total n (source.length - c.offset) with hle | hle
  · rw [Nat.min_eq_left hle]
  · rw [Nat.min_eq_right hle, List.drop_eq_nil_of_le (by omega), List.drop_eq_nil_of_le (by omega)]

/-- The second reply tells of every probe, and is like the first one otherwise. -/
inductive Reply.Logged {α : Type} (source : Text) : Reply Cursor α → Reply ProbedCursor α → Prop where
  | intro {value : Option α} {stop : Cursor} {probes : List Miss} : stop.Within source →
    (∀ m ∈ probes, 0 ≤ m.offset) → Logged source ⟨value, stop, probes.filter (·.fails source)⟩ ⟨value, ⟨stop⟩, probes⟩

/-- The two come to the same from every place of the source, and `l` tells of every probe. -/
def Rule.Logged {α : Type} (source : Text) (r : Rule Cursor α) (l : Rule ProbedCursor α) : Prop :=
  ∀ c : Cursor, c.Within source → (r c).Logged source (l ⟨c⟩)

/-- A place of the source, and the same one from which every probe is told of. -/
def Simulation.logged (source : Text) : Simulation Cursor ProbedCursor where
  place c d := c.Within source ∧ d = ⟨c⟩
  token := id
  misses ms probes := ms = probes.filter (·.fails source) ∧ ∀ m ∈ probes, 0 ≤ m.offset
  nil := ⟨rfl, List.forall_mem_nil _⟩
  append := by
    rintro _ _ _ _ ⟨rfl, hprobes⟩ ⟨rfl, hprobes'⟩
    exact ⟨List.filter_append .. |>.symm, List.forall_mem_append.mpr ⟨hprobes, hprobes'⟩⟩

theorem Simulation.logged_probe {source : Text} (t : Terminal) :
    (logged source).Alike id (Rule.probe t) (Rule.probe t) := by
  rintro c _ ⟨hc, rfl⟩
  have hfails : (⟨c.offset, t⟩ : Miss).fails source = (t.lexeme? c.rest).isNone := by
    rw [hc]
    rfl
  have hmisses : (c.probe t).misses = [⟨c.offset, t⟩].filter (·.fails source) := by
    rw [List.filter_cons, hfails, Cursor.probe]
    cases t.lexeme? c.rest <;> rfl
  have hstop : (c.probe t).stop.Within source := by
    rw [Cursor.probe]
    split
    · exact hc.advance _
    · exact hc
  exact ⟨Option.map_id_apply.symm, ⟨hstop, rfl⟩, hmisses, List.forall_mem_singleton.mpr (Int.natCast_nonneg _)⟩

theorem Simulation.logged_faithful (source : Text) : (logged source).Faithful where
  probe := logged_probe
  blanks := by
    rintro c _ ⟨hc, rfl⟩
    exact ⟨rfl, ⟨hc.advance _, rfl⟩, (logged source).nil⟩

/-! ## Calls -/

theorem Call.logged {source : Text} (c : Call) : Rule.Logged source c.rule c.rule := by
  intro p hp
  have hreply := (Simulation.logged_faithful source).call (Simulation.outcomes_id rfl) c ⟨hp, rfl⟩
  generalize c.rule p = r at hreply ⊢
  generalize c.rule (⟨p⟩ : ProbedCursor) = l at hreply ⊢
  obtain ⟨value, stop, ms⟩ := r
  obtain ⟨value', stop', probes⟩ := l
  obtain ⟨hvalue, ⟨hstop, hplace⟩, hmisses, hstarts⟩ := hreply
  obtain rfl : value' = value := hvalue.trans Option.map_id_apply
  obtain rfl : stop' = ⟨stop⟩ := hplace
  obtain rfl : ms = probes.filter (·.fails source) := hmisses
  exact .intro hstop hstarts

theorem Rule.map_apply {γ α β : Type} (r : Rule γ α) (f : α → β) (c : γ) :
    (f <$> r) c = ⟨(r c).value.map f, (r c).stop, (r c).misses⟩ := by
  show bind r (fun a => pure (f a)) c = _
  unfold bind
  generalize r c = reply
  obtain ⟨value, stop, ms⟩ := reply
  cases value with
  | none => rfl
  | some a => simp [pure]

theorem Rule.misses_map {γ α β : Type} (r : Rule γ α) (f : α → β) (c : γ) : ((f <$> r) c).misses = (r c).misses := by
  rw [map_apply]

theorem Rule.attempt_apply {γ α : Type} (r : Rule γ α) (c : γ) :
    attempt r c = ⟨(r c).value, if (r c).value.isNone then c else (r c).stop, (r c).misses⟩ := by
  unfold attempt
  generalize r c = reply
  obtain ⟨value, stop, ms⟩ := reply
  cases value <;> rfl

theorem Rule.misses_attempt {γ α : Type} (r : Rule γ α) (c : γ) : (attempt r c).misses = (r c).misses := by
  rw [attempt_apply]

theorem Call.probes_probe (t : Terminal) (c : ProbedCursor) :
    ((probe t).rule c).misses = [⟨c.cursor.offset, t⟩] := by
  cases t with
  | endOfInput => exact Rule.misses_map (Rule.test (Rule.probe .endOfInput)) Outcome.truth c
  | mark m => exact Rule.misses_map (Rule.probe m) Outcome.token c
  | atom a => exact Rule.misses_map (Rule.probe a) Outcome.token c

theorem Call.probes_take (t : Terminal) (c : ProbedCursor) :
    ((take t).rule c).misses = [⟨c.cursor.blanks.stop.offset, t⟩] := by
  have hspaced : (Rule.spaced (Rule.probe t) c).misses = [⟨c.cursor.blanks.stop.offset, t⟩] := Rule.misses_attempt _ c
  cases t with
  | endOfInput => exact (Rule.misses_map (Rule.test Rule.endOfInput) Outcome.truth c).trans hspaced
  | mark m => exact (Rule.misses_map (Rule.spaced (Rule.probe m)) Outcome.token c).trans hspaced
  | atom a => exact (Rule.misses_map (Rule.spaced (Rule.probe a)) Outcome.token c).trans hspaced

/-! ## Scans -/

/-- A look for one terminal at one place. -/
structure Scan where
  start : Int
  wanted : Terminal
  found : Bool
  deriving DecidableEq

def Scan.ofProbe (source : Text) (m : Miss) : Scan := ⟨m.offset, m.wanted, !m.fails source⟩

def Scan.miss (x : Scan) : Miss := ⟨x.start, x.wanted⟩

def Scan.failed (xs : List Scan) : List Scan := xs.filter (!·.found)

theorem Scan.map_miss_failed (source : Text) (probes : List Miss) :
    (failed (probes.map (ofProbe source))).map miss = probes.filter (·.fails source) := by
  induction probes with
  | nil => rfl
  | cons m probes ih =>
    rw [List.map_cons, failed, List.filter_cons, List.filter_cons]
    cases hm : m.fails source <;> simpa [ofProbe, miss, failed, hm] using ih

namespace Session

variable {s : Session}

/-- The scans that an operation makes from an offset of the source. What is counted as missed is a scan that failed. -/
def scans (s : Session) : Operation → List Scan
  | .miss t => [⟨s.offset, t, false⟩]
  | .call c => (c.rule (ProbedCursor.mk (.seek s.source s.offset.toNat))).misses.map (.ofProbe s.source)
  | _ => []

/-- A probe is one scan, where the session stands. -/
theorem scans_probe (s : Session) (t : Terminal) :
    s.scans (.call (.probe t)) = [.ofProbe s.source ⟨s.offset.toNat, t⟩] := by
  rw [scans, Call.probes_probe]
  rfl

/-- Taking a terminal is one scan, behind the blanks. -/
theorem scans_take (s : Session) (t : Terminal) :
    s.scans (.call (.take t)) = [.ofProbe s.source ⟨(Cursor.seek s.source s.offset.toNat).blanks.stop.offset, t⟩] := by
  rw [scans, Call.probes_take]
  rfl

/-- The scans of operations performed in turn. -/
def scansOf (s : Session) : List Operation → List Scan
  | [] => []
  | op :: ops => s.scans op ++ (s.perform op).2.scansOf ops

/-- The session behind operations performed in turn. -/
def last (s : Session) (ops : List Operation) : Session := ((s.performAll ops).map Prod.snd).getLastD s

theorem last_cons (s : Session) (op : Operation) (ops : List Operation) :
    s.last (op :: ops) = (s.perform op).2.last ops := by
  rw [last, performAll]
  exact List.getLastD_cons ..

theorem perform_snd (s : Session) (op : Operation) : (s.perform op).2 = s.after (s.reply op) := by
  unfold perform
  simp only
  split <;> rfl

theorem call_of_nonneg (h : 0 ≤ s.offset) (c : Call) :
    s.call c = (c.rule (Cursor.seek s.source s.offset.toNat)).atOffset := if_pos h

theorem logged_call (s : Session) (c : Call) : (c.rule (Cursor.seek s.source s.offset.toNat)).Logged s.source
    (c.rule (ProbedCursor.mk (.seek s.source s.offset.toNat))) :=
  c.logged _ (Cursor.within_seek s.source _)

/-- An operation misses what it scanned for and did not find. -/
theorem misses_reply (h : 0 ≤ s.offset) (op : Operation) :
    (s.reply op).misses = (Scan.failed (s.scans op)).map Scan.miss := by
  cases op with
  | miss t => rfl
  | advance n => cases n <;> rfl
  | call c =>
    have hlogged := s.logged_call c
    rw [scans, Scan.map_miss_failed, reply, call_of_nonneg h]
    generalize c.rule (Cursor.seek s.source s.offset.toNat) = r at hlogged ⊢
    generalize c.rule (ProbedCursor.mk (.seek s.source s.offset.toNat)) = l at hlogged ⊢
    cases hlogged
    rfl
  | _ => rfl

theorem furthest_perform (h : 0 ≤ s.offset) (op : Operation) :
    (s.perform op).2.furthest = s.furthest.noteAll ((Scan.failed (s.scans op)).map Scan.miss) := by
  rw [perform_snd, ← misses_reply h]
  rfl

theorem scans_nonneg (h : 0 ≤ s.offset) (op : Operation) : ∀ x ∈ s.scans op, 0 ≤ x.start := by
  cases op with
  | miss t => exact List.forall_mem_singleton.mpr h
  | call c =>
    have hlogged := s.logged_call c
    rw [scans]
    generalize c.rule (Cursor.seek s.source s.offset.toNat) = r at hlogged
    generalize c.rule (ProbedCursor.mk (.seek s.source s.offset.toNat)) = l at hlogged ⊢
    cases hlogged with
    | intro _ hstarts => exact List.forall_mem_map.mpr hstarts
  | _ => exact List.forall_mem_nil _

theorem offset_perform_nonneg (h : 0 ≤ s.offset) {op : Operation} (hop : ∀ n, op = .seek n → 0 ≤ n) :
    0 ≤ (s.perform op).2.offset := by
  rw [perform_snd]
  show 0 ≤ (s.reply op).stop
  cases op with
  | seek n => exact hop n rfl
  | advance n =>
    cases n with
    | ofNat n =>
      show 0 ≤ min (s.offset + n) (s.source.length : Int)
      omega
    | negSucc n => exact h
  | call c =>
    rw [reply, call_of_nonneg h]
    exact Int.natCast_nonneg _
  | _ => exact h

/-! ## Runs -/

/-- A run notes the scans that failed, one after the other. -/
theorem furthest_last (ops : List Operation) (h : 0 ≤ s.offset) (hops : ∀ n, Operation.seek n ∈ ops → 0 ≤ n) :
    (s.last ops).furthest = s.furthest.noteAll ((Scan.failed (s.scansOf ops)).map Scan.miss) ∧
      0 ≤ (s.last ops).offset ∧ ∀ x ∈ s.scansOf ops, 0 ≤ x.start := by
  induction ops generalizing s with
  | nil => exact ⟨rfl, h, nofun⟩
  | cons op ops ih =>
    have hnext := offset_perform_nonneg h fun n hn => hops n (hn ▸ List.mem_cons_self ..)
    obtain ⟨hfurthest, hoffset, hstarts⟩ := ih hnext fun n hn => hops n (List.mem_cons_of_mem _ hn)
    rw [last_cons]
    refine ⟨?_, hoffset, List.forall_mem_append.mpr ⟨scans_nonneg h op, hstarts⟩⟩
    rw [hfurthest, furthest_perform h, ← Furthest.noteAll_append, ← List.map_append]
    simp only [Scan.failed, scansOf, List.filter_append]

end Session

/-! ## The record of a run -/

namespace Furthest

theorem offset_noteAll_eq_foldl (f : Furthest) (ms : List Miss) :
    (f.noteAll ms).offset = (ms.map Miss.offset).foldl max f.offset := by
  induction ms generalizing f with
  | nil => rfl
  | cons m ms ih =>
    rw [List.map_cons, List.foldl_cons, ← offset_note]
    exact ih (f.note m)

theorem expected_ofMisses_eq_empty_iff {ms : List Miss} (h : ∀ m ∈ ms, 0 ≤ m.offset) :
    (ofMisses ms).expected = ∅ ↔ (ofMisses ms).offset = -1 := by
  constructor
  · intro hempty
    rcases offset_noteAll .start ms with hstart | ⟨m, hm, hoffset⟩
    · exact hstart
    · have hwanted : m.wanted ∈ (ofMisses ms).expected := by
        rw [mem_expected_ofMisses, ofMisses, ← hoffset]
        exact hm
      rw [hempty] at hwanted
      exact absurd hwanted (TerminalSet.not_mem_empty _)
  · intro hoffset
    ext t
    refine ⟨fun ht => ?_, fun ht => absurd ht (TerminalSet.not_mem_empty t)⟩
    have hle : 0 ≤ (ofMisses ms).offset := h _ ((mem_expected_ofMisses ms t).mp ht)
    omega

end Furthest

/-- The record of a run from the start is the furthest of the scans that failed, and no operation takes any of it back. -/
theorem furthest_of_scans (source : Text) (ops : List Operation) (hops : ∀ n, Operation.seek n ∈ ops → 0 ≤ n) :
    let s := (Session.start source).last ops
    let failed := ((Session.start source).scansOf ops).filter (!·.found)
    s.furthest.offset = (failed.map Scan.start).foldl max (-1) ∧
      (∀ t, t ∈ s.furthest.expected ↔ ∃ x ∈ failed, x.start = s.furthest.offset ∧ x.wanted = t) ∧
      (s.furthest.expected = ∅ ↔ s.furthest.offset = -1) ∧
      (∀ op, s.furthest.offset ≤ (s.perform op).2.furthest.offset) ∧
      (∀ op, (∀ x ∈ s.scans op, x.found = true) → (s.perform op).2.furthest = s.furthest) ∧
      (∀ n, (s.perform (.seek n)).2.furthest = s.furthest ∧ (s.perform (.advance n)).2.furthest = s.furthest) ∧
      (s.perform (.call .blanks)).2.furthest = s.furthest ∧
      ∀ t, s.scans (.call (.probe t)) = [.ofProbe s.source ⟨s.offset.toNat, t⟩] ∧
        s.scans (.call (.take t)) =
          [.ofProbe s.source ⟨(Cursor.seek s.source s.offset.toNat).blanks.stop.offset, t⟩] := by
  intro s failed
  obtain ⟨hfurthest, hoffset, hstarts⟩ := Session.furthest_last (s := .start source) ops (Int.le_refl 0) hops
  have hrecord : s.furthest = .ofMisses (failed.map Scan.miss) := hfurthest
  have hunchanged : ∀ op, (∀ x ∈ s.scans op, x.found = true) → (s.perform op).2.furthest = s.furthest := by
    intro op hop
    have hnone : Scan.failed (s.scans op) = [] := List.filter_eq_nil_iff.mpr fun x hx => by simp [hop x hx]
    rw [Session.furthest_perform hoffset, hnone]
    rfl
  refine ⟨?_, fun t => ?_, ?_, fun op => ?_, hunchanged, fun n => ⟨?_, ?_⟩, ?_, fun t => ⟨s.scans_probe t, s.scans_take t⟩⟩
  · rw [hrecord, Furthest.ofMisses, Furthest.offset_noteAll_eq_foldl, List.map_map]
    rfl
  · rw [hrecord, Furthest.mem_expected_ofMisses, List.mem_map]
    simp only [Scan.miss, Miss.mk.injEq]
  · rw [hrecord]
    refine Furthest.expected_ofMisses_eq_empty_iff (List.forall_mem_map.mpr fun x hx => ?_)
    exact hstarts x (List.mem_filter.mp hx).1
  · rw [Session.perform_snd]
    exact Furthest.offset_le_noteAll _ _
  · exact hunchanged _ (List.forall_mem_nil _)
  · exact hunchanged _ (List.forall_mem_nil _)
  · exact hunchanged _ (List.forall_mem_nil _)

theorem furthest_of_scans_of_rewind :
    let ops : List Operation := [.call (.run .chain), .seek 0, .call (.take (.mark .at))]
    ((Session.start "$['ab").last ops).furthest.offset = 2 ∧
      ∃ x ∈ (Session.start "$['ab").scansOf ops, x.found = false ∧ x.start = 2 ∧ x.wanted = .atom .quoted := by
  intro ops
  have hops : ∀ n, Operation.seek n ∈ ops → 0 ≤ n := by
    intro n hn
    simp only [ops, List.mem_cons, List.not_mem_nil, reduceCtorEq, or_false, false_or, Operation.seek.injEq] at hn
    omega
  have hoffset : ((Session.start "$['ab").last ops).furthest.offset = 2 := by decide +kernel
  have hquoted : Terminal.atom .quoted ∈ ((Session.start "$['ab").last ops).furthest.expected := by decide +kernel
  obtain ⟨-, expected, -⟩ := furthest_of_scans "$['ab" ops hops
  obtain ⟨x, hx, hstart, hwanted⟩ := (expected _).mp hquoted
  obtain ⟨hmem, hfound⟩ := List.mem_filter.mp hx
  exact ⟨hoffset, x, hmem, by simpa using hfound, hstart.trans hoffset, hwanted⟩

end JsonPath
