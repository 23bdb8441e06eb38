import Mathlib.Algebra.Ring.Nat
import Mips.Proofs.Segment

/-!
# Two runs over a segment

A first run over a new segment writes, skips and aligns, and each of its actions takes up the bytes
from the cursor on. After `rewind` a second run writes or skips as many bytes at a time, so it comes
by the same places: where it writes it leaves its own data, and where it skips it leaves what the
first run put there (`replay_exact`).

    first     write 1 2 3   align 4   skip 4    write 9
    bytes     1 2 3         0         0 0 0 0   9
    second    skip 3        skip 1    write 5 6 7 8   skip 1
    bytes     1 2 3         0         5 6 7 8   9
-/

namespace Mips

namespace Segment

/-! ### Actions and motions -/

/-- What moves the cursor in either run. -/
inductive Motion where
  | write (data : List UInt8)
  | skip (n : Nat)
  deriving DecidableEq, Repr

/-- What a first run does: it also moves the cursor to a multiple of a boundary. -/
inductive Action where
  | move (m : Motion)
  | align (boundary : Word)
  deriving DecidableEq, Repr

namespace Motion

/-- How many bytes a motion passes. -/
def size : Motion → Nat
  | .write data => data.length
  | .skip n => n

/-- What a motion leaves of the bytes `old` that it passes. -/
def leaves (old : List UInt8) : Motion → List UInt8
  | .write data => data
  | .skip _ => old

end Motion

namespace Action

/-- What an action leaves in a new segment, where it takes up `n` bytes. -/
def content (n : Nat) : Action → List UInt8
  | .move (.write data) => data
  | .move (.skip _) | .align _ => List.replicate n 0

/-- The action takes up `n` bytes at the given address: as many as it names, or as few as there are
to a multiple of its boundary. -/
def Spans (address n : Nat) : Action → Prop
  | .move m => n = m.size
  | .align boundary => boundary.toNat ∣ address + n ∧ n < boundary.toNat

end Action

/-- A segment without bytes. -/
def empty (base : Word) : Segment := { base }

variable (s : Segment)

/-- The segment after a motion. -/
def move : Motion → Segment
  | .write data => s.write data
  | .skip n => s.skip n

/-- The segment after an action of a first run. -/
def act : Action → Segment
  | .move m => s.move m
  | .align boundary => s.align boundary

/-- How many bytes an action takes up from the cursor on. -/
def extent : Action → Nat
  | .move m => m.size
  | .align boundary => s.padding boundary

/-- The segment after a first run. -/
def lay (actions : List Action) : Segment := actions.foldl act s

/-- The segment after a second run. -/
def retrace (motions : List Motion) : Segment := motions.foldl move s

/-- How many bytes the actions of a run take up, one by one. -/
def extents : Segment → List Action → List Nat
  | _, [] => []
  | s, a :: actions => s.extent a :: (s.act a).extents actions

/-- No boundary of a run is zero, and there is room for each of its actions. -/
def Admits : Segment → List Action → Prop
  | _, [] => True
  | s, a :: actions =>
    a ≠ .align 0 ∧ s.hasRoom (s.extent a) = true ∧ (s.act a).Admits actions

instance decidableAdmits : (s : Segment) → (actions : List Action) → Decidable (s.Admits actions)
  | _, [] => inferInstanceAs (Decidable True)
  | s, a :: actions =>
    have := decidableAdmits (s.act a) actions
    inferInstanceAs (Decidable (a ≠ .align 0 ∧ _ ∧ (s.act a).Admits actions))

/-- The segment `t` has the bytes of `s`, apart from `n` bytes at the cursor of `s`. -/
def Keeps (n : Nat) (t : Segment) : Prop :=
  ∀ i, i < s.cursor ∨ s.cursor + n ≤ i → t.bytes[i]? = s.bytes[i]?

/-- What the actions of a run leave in a new segment, one by one. -/
def contents : Segment → List Action → List (List UInt8)
  | _, [] => []
  | s, a :: actions => a.content (s.extent a) :: (s.act a).contents actions

theorem length_content (a : Action) : (a.content (s.extent a)).length = s.extent a := by
  rcases a with (_ | _) | _ <;> simp [Action.content, extent, Motion.size]

theorem map_length_contents (actions : List Action) :
    (s.contents actions).map List.length = s.extents actions := by
  induction actions generalizing s with
  | nil => rfl
  | cons a actions ih => rw [contents, List.map_cons, length_content, ih, extents]

theorem length_extents (actions : List Action) : (s.extents actions).length = actions.length := by
  induction actions generalizing s with
  | nil => rfl
  | cons a actions ih => rw [extents, List.length_cons, ih, List.length_cons]

theorem extents_append (first rest : List Action) :
    s.extents (first ++ rest) = s.extents first ++ (s.lay first).extents rest := by
  induction first generalizing s with
  | nil => rfl
  | cons a first ih =>
    rw [List.cons_append, extents, ih, extents]
    rfl

theorem contents_append (first rest : List Action) :
    s.contents (first ++ rest) = s.contents first ++ (s.lay first).contents rest := by
  induction first generalizing s with
  | nil => rfl
  | cons a first ih =>
    rw [List.cons_append, contents, ih, contents]
    rfl

variable {s}

theorem Admits.of_append {first rest : List Action} (h : s.Admits (first ++ rest)) :
    (s.lay first).Admits rest := by
  induction first generalizing s with
  | nil => exact h
  | cons a first ih => exact ih h.2.2

/-! ### The first run -/

/-- An action leaves its content before the cursor of a segment that ends there. -/
theorem act_parted (base : Word) (done : List UInt8) (a : Action) :
    (parted base done []).act a =
      parted base (done ++ a.content ((parted base done []).extent a)) [] := by
  rcases a with (data | n) | boundary
  · exact (write_parted base done [] data).trans (by rw [List.drop_nil]; rfl)
  · exact (skip_parted_zeros base done [] n (Or.inl rfl)).trans (by rw [List.drop_nil]; rfl)
  · exact (skip_parted_zeros base done [] _ (Or.inl rfl)).trans (by rw [List.drop_nil]; rfl)

theorem lay_parted (base : Word) (done : List UInt8) (actions : List Action) :
    (parted base done []).lay actions =
      parted base (done ++ ((parted base done []).contents actions).flatten) [] := by
  induction actions generalizing done with
  | nil => exact congrArg (parted base · []) (List.append_nil done).symm
  | cons a actions ih =>
    have hfirst := act_parted base done a
    rw [lay, List.foldl_cons, hfirst, ← lay, ih, contents, hfirst, List.flatten_cons,
      List.append_assoc]

theorem lay_empty (base : Word) (actions : List Action) :
    (empty base).lay actions = parted base ((empty base).contents actions).flatten [] :=
  lay_parted base [] actions

/-! ### The second run -/

/-- A motion leaves what it makes of the bytes behind the cursor. -/
theorem move_parted (base : Word) (done : List UInt8) {old : List UInt8} (rest : List UInt8)
    {m : Motion} (h : old.length = m.size) :
    (parted base done (old ++ rest)).move m = parted base (done ++ m.leaves old) rest := by
  cases m with
  | write data =>
    change old.length = data.length at h
    rw [move, write_parted, ← h, List.drop_left, Motion.leaves]
  | skip n =>
    change old.length = n at h
    subst h
    rw [move, skip_parted, List.take_left, List.drop_left, List.length_append,
      Nat.sub_eq_zero_of_le (Nat.le_add_right _ _), List.replicate_zero, List.append_nil,
      Motion.leaves]

/-- What motions leave of the bytes that they pass, one by one. -/
def rewritten (motions : List Motion) (olds : List (List UInt8)) : List (List UInt8) :=
  List.zipWith (fun m old => m.leaves old) motions olds

theorem rewritten_cons (m : Motion) (motions : List Motion) (old : List UInt8)
    (olds : List (List UInt8)) :
    rewritten (m :: motions) (old :: olds) = m.leaves old :: rewritten motions olds := rfl

theorem retrace_parted (base : Word) (rest : List UInt8) :
    ∀ {motions : List Motion} {olds : List (List UInt8)} (done : List UInt8),
      olds.map List.length = motions.map Motion.size →
      (parted base done (olds.flatten ++ rest)).retrace motions =
        parted base (done ++ (rewritten motions olds).flatten) rest
  | [], [], done, _ => congrArg (parted base · rest) (List.append_nil done).symm
  | m :: motions, old :: olds, done, h => by
    obtain ⟨hfirst, hrest⟩ := List.cons.inj h
    rw [retrace, List.foldl_cons, List.flatten_cons, List.append_assoc,
      move_parted base done _ hfirst, ← retrace, retrace_parted base rest _ hrest, rewritten_cons,
      List.flatten_cons, List.append_assoc]

theorem length_leaves {m : Motion} {old : List UInt8} (h : old.length = m.size) :
    (m.leaves old).length = m.size := by
  cases m with
  | write data => rfl
  | skip n => exact h

theorem map_length_rewritten : ∀ {motions : List Motion} {olds : List (List UInt8)},
    olds.map List.length = motions.map Motion.size →
    (rewritten motions olds).map List.length = motions.map Motion.size
  | [], [], _ => rfl
  | m :: motions, old :: olds, h => by
    obtain ⟨hfirst, hrest⟩ := List.cons.inj h
    rw [rewritten_cons, List.map_cons, length_leaves hfirst, map_length_rewritten hrest,
      List.map_cons]

theorem rewritten_append {motions : List Motion} {olds : List (List UInt8)}
    (h : motions.length = olds.length) (motions' : List Motion) (olds' : List (List UInt8)) :
    rewritten (motions ++ motions') (olds ++ olds') =
      rewritten motions olds ++ rewritten motions' olds' :=
  List.zipWith_append h

/-! ### Both runs -/

/-- A new segment after a first run and a second run. -/
def replay (base : Word) (first : List Action) (second : List Motion) : Segment :=
  ((empty base).lay first).rewind.retrace second

/-- New bytes before the cursor, in place of as many behind it or at the end of all bytes. -/
theorem keeps_parted (base : Word) (done new : List UInt8) {old : List UInt8} (rest : List UInt8)
    (h : old.length = new.length ∨ old = [] ∧ rest = []) :
    (parted base done (old ++ rest)).Keeps new.length (parted base (done ++ new) rest) := by
  intro i hi
  rw [cursor_parted] at hi
  rw [bytes_parted, bytes_parted, List.getElem?_toArray, List.getElem?_toArray, List.append_assoc]
  rcases hi with hi | hi
  · rw [List.getElem?_append_left hi, List.getElem?_append_left hi]
  · rw [List.getElem?_append_right (by omega), List.getElem?_append_right (by omega)]
    rcases h with h | ⟨rfl, rfl⟩
    · rw [List.getElem?_append_right (by omega), List.getElem?_append_right (by omega), h]
    · rw [List.append_nil, List.append_nil, List.getElem?_nil, List.getElem?_eq_none (by omega)]

/-- The bytes that an action takes up where there is room for it. -/
theorem Admits.spans {a : Action} {actions : List Action} (h : s.Admits (a :: actions)) :
    a.Spans (s.base.toNat + s.cursor) (s.extent a) := by
  obtain ⟨hzero, hroom, -⟩ := h
  cases a with
  | move m => rfl
  | align boundary =>
    have hpos : 0 < boundary.toNat := by
      refine Nat.pos_of_ne_zero fun h => hzero ?_
      exact congrArg Action.align (BitVec.eq_of_toNat_eq h)
    have hbelow : s.base.toNat + s.cursor + s.padding boundary ≤ 0xffffffff :=
      of_decide_eq_true hroom
    refine ⟨?_, Nat.mod_lt _ hpos⟩
    rw [← toNat_address (by omega)]
    exact s.dvd_address_add_padding hpos

/-- Runs over the same sizes, cut in front of an action and of the motion in its place. -/
theorem sizes_split {before behind : List Action} {a : Action} {before' behind' : List Motion}
    {m : Motion} (hlength : before'.length = before.length)
    (h : (before' ++ m :: behind').map Motion.size = s.extents (before ++ a :: behind)) :
    before'.map Motion.size = s.extents before ∧ m.size = (s.lay before).extent a ∧
      behind'.map Motion.size = ((s.lay before).act a).extents behind := by
  rw [extents_append, List.map_append, List.map_cons, extents] at h
  obtain ⟨hbefore, hbehind⟩ := List.append_inj h (by rw [List.length_map, length_extents, hlength])
  exact ⟨hbefore, List.cons.inj hbehind⟩

theorem cursor_lay (base : Word) (actions : List Action) :
    ((empty base).lay actions).cursor = ((empty base).extents actions).sum := by
  rw [lay_empty, cursor_parted, List.length_flatten, map_length_contents]

/-- The second run in front of an action: what it has left, and what it will find. -/
theorem retrace_front (base : Word) (before rest : List Action) {motions : List Motion}
    (h : motions.map Motion.size = (empty base).extents before) :
    ((empty base).lay (before ++ rest)).rewind.retrace motions =
      parted base (rewritten motions ((empty base).contents before)).flatten
        (((empty base).lay before).contents rest).flatten := by
  rw [lay_empty, rewind_parted, List.append_nil, contents_append, List.flatten_append,
    retrace_parted base _ [] ((map_length_contents _ before).trans h.symm), List.nil_append]

theorem length_rewritten {base : Word} {actions : List Action} {motions : List Motion}
    (h : motions.map Motion.size = (empty base).extents actions) :
    (rewritten motions ((empty base).contents actions)).flatten.length =
      ((empty base).extents actions).sum := by
  rw [List.length_flatten, map_length_rewritten ((map_length_contents _ actions).trans h.symm), h]

theorem replay_eq {base : Word} {first : List Action} {second : List Motion}
    (h : second.map Motion.size = (empty base).extents first) :
    replay base first second =
      parted base (rewritten second ((empty base).contents first)).flatten [] := by
  have hwhole := retrace_front base first [] h
  rwa [List.append_nil] at hwhole

/-- An action of the first run changes no byte but its own. -/
theorem keeps_act (base : Word) (before : List Action) (a : Action) :
    ((empty base).lay before).Keeps (((empty base).lay before).extent a)
      (((empty base).lay before).act a) := by
  rw [lay_empty, act_parted]
  generalize ((empty base).contents before).flatten = done
  have hnew := length_content (parted base done []) a
  have hkeeps := keeps_parted base done (a.content ((parted base done []).extent a)) []
    (Or.inr ⟨rfl, rfl⟩)
  rwa [hnew] at hkeeps

/-- A motion of the second run changes no byte but its own. -/
theorem keeps_move (base : Word) (done : List UInt8) {old : List UInt8} (rest : List UInt8)
    {m : Motion} (h : old.length = m.size) :
    (parted base done (old ++ rest)).Keeps m.size ((parted base done (old ++ rest)).move m) := by
  have hnew := length_leaves h
  rw [move_parted base done rest h, ← hnew]
  exact keeps_parted base done _ rest (Or.inl (h.trans hnew.symm))

/-- After both runs a new segment has as many bytes as the first run took up, and the cursor is
behind them. An action of the first run and the motion in its place have the same bytes: there stand
the data of the motion if it writes, and else what the action left. Neither of the two changes any
other byte. -/
theorem replay_exact {base : Word} {first : List Action} {second : List Motion}
    (hadmits : (empty base).Admits first)
    (hsizes : second.map Motion.size = (empty base).extents first) :
    (replay base first second).bytes.size = ((empty base).extents first).sum ∧
      (replay base first second).cursor = ((empty base).extents first).sum ∧
      ∀ before a behind before' m behind', first = before ++ a :: behind →
        second = before' ++ m :: behind' → before'.length = before.length →
        let s := (empty base).lay before
        let t := ((empty base).lay first).rewind.retrace before'
        t.cursor = s.cursor ∧ a.Spans (base.toNat + s.cursor) m.size ∧
          ((replay base first second).bytes.toList.drop s.cursor).take m.size =
            m.leaves (a.content m.size) ∧
          s.Keeps m.size (s.act a) ∧ t.Keeps m.size (t.move m) := by
  refine ⟨?_, ?_, ?_⟩
  · rw [replay_eq hsizes, bytes_parted, List.size_toArray, List.append_nil, length_rewritten hsizes]
  · rw [replay_eq hsizes, cursor_parted, length_rewritten hsizes]
  · rintro before a behind before' m behind' rfl rfl hlength s t
    obtain ⟨hbefore, hm, -⟩ := sizes_split hlength hsizes
    have hcursor : s.cursor = ((empty base).extents before).sum := cursor_lay base before
    have hbase : s.base = base := congrArg Segment.base (lay_empty base before)
    have hold : (a.content m.size).length = m.size := by rw [hm, length_content]
    -- what the second run has left, and what it finds
    have ht : t = parted base (rewritten before' ((empty base).contents before)).flatten
        (a.content m.size ++ ((s.act a).contents behind).flatten) := by
      rw [hm]
      exact retrace_front base before (a :: behind) hbefore
    refine ⟨?_, ?_, ?_, ?_, ?_⟩
    · rw [ht, cursor_parted, length_rewritten hbefore, hcursor]
    · rw [← hbase, hm]
      exact hadmits.of_append.spans
    · have hcount : before'.length = ((empty base).contents before).length := by
        rw [hlength, ← List.length_map List.length, map_length_contents, length_extents]
      rw [replay_eq hsizes, contents_append, contents, rewritten_append hcount, rewritten_cons,
        List.flatten_append, List.flatten_cons, bytes_parted, List.append_nil, ← hm, hcursor,
        ← length_rewritten hbefore, List.drop_left]
      exact List.take_left' (length_leaves hold)
    · rw [hm]
      exact keeps_act base before a
    · rw [ht]
      exact keeps_move base _ _ hold

/-- Two bytes that the first run passes over are written in the second run. -/
theorem skipped_bytes_written :
    (replay 0x1001 [.move (.write [1, 2]), .align 4, .move (.skip 2)]
        [.skip 2, .skip 1, .write [5, 6]]).cursor = 5 ∧
      Action.Spans (0x1001 + 2) 1 (.align 4) ∧
      ((replay 0x1001 [.move (.write [1, 2]), .align 4, .move (.skip 2)]
        [.skip 2, .skip 1, .write [5, 6]]).bytes.toList.drop 3).take 2 = [5, 6] := by
  have hadmits : (empty 0x1001).Admits [.move (.write [1, 2]), .align 4, .move (.skip 2)] := by
    decide +kernel
  have hsizes : [.skip 2, .skip 1, .write [5, 6]].map Motion.size =
      (empty 0x1001).extents [.move (.write [1, 2]), .align 4, .move (.skip 2)] := by
    decide +kernel
  obtain ⟨-, hcursor, hactions⟩ := replay_exact hadmits hsizes
  have hsecond := hactions [.move (.write [1, 2])] _ _ [.skip 2] _ _ rfl rfl rfl
  have hthird := hactions [.move (.write [1, 2]), .align 4] _ _ [.skip 2, .skip 1] _ _ rfl rfl rfl
  exact ⟨hcursor, hsecond.2.1, hthird.2.2.1⟩

end Segment

end Mips
