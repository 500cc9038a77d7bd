import ModuleLowering.Proofs.Scan.Levels
import ModuleLowering.Proofs.Statement.Elements

/-!
The grammar of binding patterns, and the places of the names that a pattern binds. Keys and default values are runs
of tokens in which brackets are closed; how a slash or a word is read is left to the scanner.
-/

namespace ModuleLowering

def Kind.isPropertyName (kind : Kind) : Bool := kind.isIdentifierName || kind = .string || kind = .number

def Kind.endsElement : Kind → Bool
  | comma | closeBrace | closeBracket => true
  | _ => false

namespace Stream

inductive KeyAt (s : Stream) : Nat → Nat → Prop
  | name {i : Nat} {kind : Kind} (hkind : s.isAt i kind) (hname : kind.isPropertyName) : s.KeyAt i (i + 1)
  | computed {i j : Nat} (hopen : s.isAt i .openBracket) (hinside : s.RunAt .brackets (i + 1) j)
      (hclose : s.isAt j .closeBracket) : s.KeyAt i (j + 1)

inductive DefaultAt (s : Stream) : Nat → Nat → Prop
  | none {i : Nat} : s.DefaultAt i i
  | value {i j : Nat} (hequals : s.isAt i .equals) (hvalue : s.RunAt .value (i + 1) j) : s.DefaultAt i j

def identifiersIn (s : Stream) (i j : Nat) : List Nat := (List.range' i (j - i)).filter (s.isAt · .identifier)

mutual

/-- A name or a pattern from `i` up to `j`, with the places of the names that it binds and with those of all other
identifiers in it, which stand in keys and in default values. -/
inductive TargetAt (s : Stream) : Nat → Nat → List Nat → List Nat → Prop
  | name {i : Nat} (hname : s.isAt i .identifier) : TargetAt s i (i + 1) [i] []
  | object {i j : Nat} {sites aside : List Nat} (hopen : s.isAt i .openBrace)
      (hinside : ElementsAt s true (i + 1) j sites aside) (hclose : s.isAt j .closeBrace) :
      TargetAt s i (j + 1) sites aside
  | array {i j : Nat} {sites aside : List Nat} (hopen : s.isAt i .openBracket)
      (hinside : ElementsAt s false (i + 1) j sites aside) (hclose : s.isAt j .closeBracket) :
      TargetAt s i (j + 1) sites aside

inductive ElementsAt (s : Stream) : Bool → Nat → Nat → List Nat → List Nat → Prop
  | nil {inObject : Bool} {i : Nat} : ElementsAt s inObject i i [] []
  | last {inObject : Bool} {i j : Nat} {sites aside : List Nat} (helement : ElementAt s inObject i j sites aside) :
      ElementsAt s inObject i j sites aside
  | next {inObject : Bool} {i j k : Nat} {sites aside sites' aside' : List Nat}
      (helement : ElementAt s inObject i j sites aside) (hcomma : s.isAt j .comma)
      (hrest : ElementsAt s inObject (j + 1) k sites' aside') :
      ElementsAt s inObject i k (sites ++ sites') (aside ++ aside')

inductive ElementAt (s : Stream) : Bool → Nat → Nat → List Nat → List Nat → Prop
  | hole {i : Nat} : ElementAt s false i i [] []
  | item {i j k : Nat} {sites aside : List Nat} (htarget : TargetAt s i j sites aside) (hdefault : s.DefaultAt j k) :
      ElementAt s false i k sites (aside ++ s.identifiersIn j k)
  | shorthand {i j : Nat} (hname : s.isAt i .identifier) (hdefault : s.DefaultAt (i + 1) j) :
      ElementAt s true i j [i] (s.identifiersIn (i + 1) j)
  | keyed {i j k l : Nat} {sites aside : List Nat} (hkey : s.KeyAt i j) (hcolon : s.isAt j .colon)
      (htarget : TargetAt s (j + 1) k sites aside) (hdefault : s.DefaultAt k l) :
      ElementAt s true i l sites (s.identifiersIn i j ++ aside ++ s.identifiersIn k l)
  | rest {inObject : Bool} {i j : Nat} {sites aside : List Nat} (hellipsis : s.isAt i .ellipsis)
      (htarget : TargetAt s (i + 1) j sites aside) : ElementAt s inObject i j sites aside

end

variable {source : List Char} {s : Stream} {level : Nat → Nat}

section

variable (hl : s.Leveled level)
include hl

theorem KeyAt.keeps {i j : Nat} (h : s.KeyAt i j) : s.Keeps level .value i j := by
  cases h with
  | @name kind hkind hname =>
    refine .token hl hkind ?_
    cases kind <;> first | rfl | cases hname
  | computed hopen hinside hclose => exact .group hl hopen rfl (hinside.keeps hl) hclose

theorem DefaultAt.keeps {i j : Nat} (h : s.DefaultAt i j) : s.Keeps level .value i j := by
  cases h with
  | none => exact .refl _ _
  | value hequals hvalue => exact (Keeps.token hl hequals rfl).trans (hvalue.keeps hl)

mutual

theorem TargetAt.keeps {i j : Nat} {sites aside : List Nat} (h : s.TargetAt i j sites aside) :
    s.Keeps level .value i j := by
  match h with
  | .name hname => exact .token hl hname rfl
  | .object hopen hinside hclose => exact .group hl hopen rfl hinside.keeps hclose
  | .array hopen hinside hclose => exact .group hl hopen rfl hinside.keeps hclose

theorem ElementsAt.keeps {inObject : Bool} {i j : Nat} {sites aside : List Nat}
    (h : s.ElementsAt inObject i j sites aside) : s.Keeps level .brackets i j := by
  match h with
  | .nil => exact .refl _ _
  | .last helement => exact helement.keeps.brackets_of_value
  | .next helement hcomma hrest =>
    exact helement.keeps.brackets_of_value.trans ((Keeps.token hl hcomma rfl).trans hrest.keeps)

theorem ElementAt.keeps {inObject : Bool} {i j : Nat} {sites aside : List Nat}
    (h : s.ElementAt inObject i j sites aside) : s.Keeps level .value i j := by
  match h with
  | .hole => exact .refl _ _
  | .item htarget hdefault => exact htarget.keeps.trans (hdefault.keeps hl)
  | .shorthand hname hdefault => exact (Keeps.token hl hname rfl).trans (hdefault.keeps hl)
  | .keyed hkey hcolon htarget hdefault =>
    exact (hkey.keeps hl).trans ((Keeps.token hl hcolon rfl).trans (htarget.keeps.trans (hdefault.keeps hl)))
  | .rest hellipsis htarget => exact (Keeps.token hl hellipsis rfl).trans htarget.keeps

end

end

structure InOrder (i j : Nat) (sites : List Nat) : Prop where
  increasing : sites.Pairwise (· < ·)
  between : ∀ k ∈ sites, i ≤ k ∧ k < j

theorem InOrder.nil (i j : Nat) : InOrder i j [] := ⟨.nil, nofun⟩

theorem InOrder.single {i j : Nat} (hij : i < j) : InOrder i j [i] := by
  refine ⟨List.pairwise_singleton _ _, fun k hk => ?_⟩
  obtain rfl := List.mem_singleton.1 hk
  exact ⟨Nat.le_refl k, hij⟩

theorem InOrder.eq_nil {i : Nat} {sites : List Nat} (h : InOrder i i sites) : sites = [] := by
  refine List.eq_nil_iff_forall_not_mem.2 fun k hk => ?_
  obtain ⟨hik, hki⟩ := h.between k hk
  omega

theorem InOrder.mono {i i' j j' : Nat} {sites : List Nat} (h : InOrder i j sites) (hi : i' ≤ i) (hj : j ≤ j') :
    InOrder i' j' sites := by
  refine ⟨h.increasing, fun k hk => ?_⟩
  obtain ⟨hik, hkj⟩ := h.between k hk
  exact ⟨Nat.le_trans hi hik, Nat.lt_of_lt_of_le hkj hj⟩

theorem InOrder.append {i j k l : Nat} {sites rest : List Nat} (h : InOrder i j sites) (h' : InOrder k l rest)
    (hij : i ≤ j) (hjk : j ≤ k) (hkl : k ≤ l) : InOrder i l (sites ++ rest) := by
  refine ⟨List.pairwise_append.2 ⟨h.increasing, h'.increasing, fun a ha b hb => ?_⟩, fun m hm => ?_⟩
  · have := (h.between a ha).2
    have := (h'.between b hb).1
    omega
  · rcases List.mem_append.1 hm with hm | hm
    · exact (h.mono (Nat.le_refl i) (by omega)).between m hm
    · exact (h'.mono (by omega) (Nat.le_refl l)).between m hm

mutual

theorem TargetAt.inOrder (hl : s.Leveled level) {i j : Nat} {sites aside : List Nat}
    (h : s.TargetAt i j sites aside) : InOrder i j sites := by
  match h with
  | .name hname => exact .single (Nat.lt_succ_self _)
  | .object _ hinside _ => exact (hinside.inOrder hl).mono (Nat.le_succ _) (Nat.le_succ _)
  | .array _ hinside _ => exact (hinside.inOrder hl).mono (Nat.le_succ _) (Nat.le_succ _)

theorem ElementsAt.inOrder (hl : s.Leveled level) {inObject : Bool} {i j : Nat} {sites aside : List Nat}
    (h : s.ElementsAt inObject i j sites aside) : InOrder i j sites := by
  match h with
  | .nil => exact .nil _ _
  | .last helement => exact helement.inOrder hl
  | .next helement _ hrest =>
    exact (helement.inOrder hl).append (hrest.inOrder hl) (helement.keeps hl).le (Nat.le_succ _) (hrest.keeps hl).le

theorem ElementAt.inOrder (hl : s.Leveled level) {inObject : Bool} {i j : Nat} {sites aside : List Nat}
    (h : s.ElementAt inObject i j sites aside) : InOrder i j sites := by
  match h with
  | .hole => exact .nil _ _
  | .item htarget hdefault => exact (htarget.inOrder hl).mono (Nat.le_refl _) (hdefault.keeps hl).le
  | .shorthand hname hdefault => exact .single (hdefault.keeps hl).le
  | .keyed hkey _ htarget hdefault =>
    exact (htarget.inOrder hl).mono (Nat.le_succ_of_le (hkey.keeps hl).le) (hdefault.keeps hl).le
  | .rest _ htarget => exact (htarget.inOrder hl).mono (Nat.le_succ _) (Nat.le_refl _)

end

def Partitions (s : Stream) (i j : Nat) (sites aside : List Nat) : Prop :=
  (sites ++ aside).Perm (s.identifiersIn i j)

theorem identifiersIn_append {i j k : Nat} (hij : i ≤ j) (hjk : j ≤ k) :
    s.identifiersIn i j ++ s.identifiersIn j k = s.identifiersIn i k := by
  obtain ⟨m, rfl⟩ := Nat.exists_eq_add_of_le hij
  obtain ⟨n, rfl⟩ := Nat.exists_eq_add_of_le hjk
  rw [identifiersIn, identifiersIn, identifiersIn, ← List.filter_append, Nat.add_sub_cancel_left,
    Nat.add_sub_cancel_left, Nat.add_assoc, Nat.add_sub_cancel_left, List.range'_append_1]

theorem identifiersIn_succ (i : Nat) : s.identifiersIn i (i + 1) = if s.isAt i .identifier then [i] else [] := by
  rw [identifiersIn, Nat.add_sub_cancel_left, List.range'_one, List.filter_singleton]
  cases s.isAt i .identifier <;> rfl

namespace Partitions

theorem refl (i : Nat) : s.Partitions i i [] [] := by
  rw [Partitions, identifiersIn, Nat.sub_self]
  exact .nil

theorem name {i : Nat} (hname : s.isAt i .identifier) : s.Partitions i (i + 1) [i] [] := by
  rw [Partitions, identifiersIn_succ, if_pos hname]
  exact .refl _

theorem token {i : Nat} {kind : Kind} (hkind : s.isAt i kind) (hne : kind ≠ .identifier) :
    s.Partitions i (i + 1) [] [] := by
  rw [Partitions, identifiersIn_succ, if_neg (not_isAt_of_isAt hkind hne)]
  exact .nil

theorem aside (i j : Nat) : s.Partitions i j [] (s.identifiersIn i j) := List.Perm.refl _

theorem append {i j k : Nat} {sites aside sites' aside' : List Nat} (h : s.Partitions i j sites aside)
    (h' : s.Partitions j k sites' aside') (hij : i ≤ j) (hjk : j ≤ k) :
    s.Partitions i k (sites ++ sites') (aside ++ aside') := by
  rw [Partitions, ← identifiersIn_append hij hjk]
  refine .trans ?_ (List.Perm.append h h')
  rw [List.append_assoc, List.append_assoc]
  refine .append_left sites ?_
  rw [← List.append_assoc, ← List.append_assoc]
  exact List.perm_append_comm.append_right aside'

theorem brackets {i j : Nat} {sites aside : List Nat} {a b : Kind} (hopen : s.isAt i a) (ha : a ≠ .identifier)
    (hinside : s.Partitions (i + 1) j sites aside) (hle : i + 1 ≤ j) (hclose : s.isAt j b) (hb : b ≠ .identifier) :
    s.Partitions i (j + 1) sites aside := by
  have hrest := hinside.append (token hclose hb) hle (Nat.le_succ j)
  have hall := (token hopen ha).append hrest (Nat.le_succ i) (Nat.le_succ_of_le hle)
  simpa using hall

end Partitions

mutual

theorem TargetAt.partitions (hl : s.Leveled level) {i j : Nat} {sites aside : List Nat}
    (h : s.TargetAt i j sites aside) : s.Partitions i j sites aside := by
  match h with
  | .name hname => exact .name hname
  | .object hopen hinside hclose =>
    exact .brackets hopen nofun (hinside.partitions hl) (hinside.keeps hl).le hclose nofun
  | .array hopen hinside hclose =>
    exact .brackets hopen nofun (hinside.partitions hl) (hinside.keeps hl).le hclose nofun

theorem ElementsAt.partitions (hl : s.Leveled level) {inObject : Bool} {i j : Nat} {sites aside : List Nat}
    (h : s.ElementsAt inObject i j sites aside) : s.Partitions i j sites aside := by
  match h with
  | .nil => exact .refl _
  | .last helement => exact helement.partitions hl
  | .next helement hcomma hrest =>
    have hle := (hrest.keeps hl).le
    have hrest := (Partitions.token hcomma nofun).append (hrest.partitions hl) (Nat.le_succ _) hle
    exact (helement.partitions hl).append hrest (helement.keeps hl).le (Nat.le_of_succ_le hle)

theorem ElementAt.partitions (hl : s.Leveled level) {inObject : Bool} {i j : Nat} {sites aside : List Nat}
    (h : s.ElementAt inObject i j sites aside) : s.Partitions i j sites aside := by
  match h with
  | .hole => exact .refl _
  | .item htarget hdefault =>
    have hall := (htarget.partitions hl).append (.aside _ _) (htarget.keeps hl).le (hdefault.keeps hl).le
    rwa [List.append_nil] at hall
  | .shorthand hname hdefault =>
    exact (Partitions.name hname).append (.aside _ _) (Nat.le_succ _) (hdefault.keeps hl).le
  | .keyed hkey hcolon htarget hdefault =>
    have hle := (htarget.keeps hl).le
    have hend := Nat.le_trans hle (hdefault.keeps hl).le
    have hbound := (htarget.partitions hl).append (.aside _ _) hle (hdefault.keeps hl).le
    have hrest := (Partitions.token hcolon nofun).append hbound (Nat.le_succ _) hend
    have hall := (Partitions.aside _ _).append hrest (hkey.keeps hl).le (Nat.le_of_succ_le hend)
    simpa using hall
  | .rest hellipsis htarget =>
    exact (Partitions.token hellipsis nofun).append (htarget.partitions hl) (Nat.le_succ _) (htarget.keeps hl).le

end

end Stream

end ModuleLowering
