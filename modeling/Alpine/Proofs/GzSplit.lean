import Alpine.Spec.GzSplit

/-! The files that `abuild-gzsplit` writes. zlib is described by what one call of `inflate` does in
the middle of a gzip member; the run is cut at the ends of the members, and in a member it is a
sequence of rounds that each move some input or some output. The file of a member is chosen by what
its first round stored in `obuf`, so this is where it matters how `read` splits the input. -/

namespace Alpine

open List Function

section

variable {ζ : Type} (z : Zlib ζ)

/-- the bytes at `next_in` go on with the member, and may go on behind it -/
def Continues (m : Bytes) (i : ℕ) (input : Bytes) : Prop := input <+: m.drop i ∨ m.drop i <+: input

/-- the states of `inflate` inside of the member `m`, with `i` bytes of it read and `o` bytes stored -/
inductive Zlib.Within (m : Bytes) : ζ → ℕ → ℕ → Prop
  | init {zs : ζ} : z.inflateInit2 = some zs → Zlib.Within m zs 0 0
  | call {zs : ζ} {i o : ℕ} (input : Bytes) (n : ℕ) : Zlib.Within m zs i o → Continues m i input →
      0 < n → (z.inflate zs input n).ret = .ok →
      Zlib.Within m (z.inflate zs input n).zs (i + (z.inflate zs input n).used)
        (o + (z.inflate zs input n).out.length)

/-- One call of `inflate` inside of a member: it stores the next bytes of the content, does not read
behind the member, and stops at its end, or when there is no more room or no more input. In the last
case all of the content was stored that the input up to here determines. -/
structure InflateCall (m content : Bytes) (ready : ℕ → ℕ) (i o : ℕ) (input : Bytes) (n : ℕ)
    (x : Inflated ζ) : Prop where
  used : x.used ≤ input.length
  room : x.out.length ≤ n
  out : x.out <+: content.drop o
  ret : x.ret = .streamEnd ∧ i + x.used = m.length ∧ o + x.out.length = content.length ∨
    x.ret = .ok ∧ i + x.used < m.length ∧
      (x.out.length = n ∨ x.used = input.length ∧ o + x.out.length = ready (i + x.used))

/-- A gzip member that zlib inflates correctly. From its first `i` bytes `ready i` bytes of the
content can be inflated. -/
structure GzipMember where
  bytes : Bytes
  content : Bytes
  ready : ℕ → ℕ
  ne_nil : bytes ≠ []
  call : ∀ zs i o input n, z.Within bytes zs i o → input ≠ [] → Continues bytes i input → 0 < n →
    InflateCall bytes content ready i o input n (z.inflate zs input n)

end

/-- the part of the first name of an archive that is compared -/
def headName (content : Bytes) : Bytes := (cstr content).rtakeWhile (· ≠ asc '/')

/-- `find_section` tells the member by its first `n` bytes: they are more than it compares, and the first
name is complete. The data is what is told by neither name, also if there are too few bytes for both. -/
def ToldBy (content : Bytes) (n : ℕ) : SplitFile → Prop
  | .signatures => 6 < n ∧ (0 : UInt8) ∈ content.take n
  | .control => 8 < n ∧ (0 : UInt8) ∈ content.take n
  | .data => 0 < n ∧ (n ≤ 6 ∨ (0 : UInt8) ∈ content.take n)

/-- an archive begins with a header block, and there is a zero in it -/
structure ArchiveHead (content : Bytes) : Prop where
  block : 512 ≤ content.length
  zero : (0 : UInt8) ∈ content.take 512

def HoldsSection (content : Bytes) : SplitFile → Prop
  | .signatures => lit ".SIGN." <+: headName content
  | .control => lit ".PKGINFO" <+: headName content
  | .data => ¬ lit ".SIGN." <+: headName content ∧ ¬ lit ".PKGINFO" <+: headName content

theorem cstr_append_of_mem {a : Bytes} {b : Bytes} (h : (0 : UInt8) ∈ a) : cstr (a ++ b) = cstr a := by
  induction a with
  | nil => cases h
  | cons c a ih =>
    rw [cons_append, cstr, cstr, takeWhile_cons, takeWhile_cons]
    split_ifs with hc
    · have h' : (0 : UInt8) ∈ a := by
        rcases mem_cons.1 h with rfl | h
        · simp at hc
        · exact h
      rw [← cstr, ih h', cstr]
    · rfl

variable {content out : Bytes}

theorem cstr_of_prefix {rest : Bytes} (hout : out <+: content) (h : (0 : UInt8) ∈ out) :
    cstr (out ++ rest) = cstr content := by
  obtain ⟨t, rfl⟩ := hout
  rw [cstr_append_of_mem h, cstr_append_of_mem h]

theorem findSection_head (rest str : Bytes) (hout : out <+: content)
    (hlen : str.length < out.length) (hzero : (0 : UInt8) ∈ content.take out.length) :
    findSection (out ++ rest) out.length str = some (decide (str <+: headName content)) := by
  rw [← prefix_iff_eq_take.1 hout] at hzero
  rw [findSection, if_neg (by omega), if_pos (mem_append_left _ hzero), cstr_of_prefix hout hzero]
  congr 1
  rw [Bool.eq_iff_iff, isPrefixOf_iff_prefix, decide_eq_true_iff]
  rfl

theorem sign_length : (lit ".SIGN.").length = 6 := by with_unfolding_all rfl

theorem pkginfo_length : (lit ".PKGINFO").length = 8 := by with_unfolding_all rfl

theorem not_sign_of_pkginfo {s : Bytes} (h : lit ".PKGINFO" <+: s) : ¬ lit ".SIGN." <+: s := by
  intro h'
  have := prefix_of_prefix_length_le h' h (by rw [sign_length, pkginfo_length]; decide)
  exact absurd this (by decide +kernel)

section

variable {ζ : Type} {z : Zlib ζ} {sys : SplitSys} {zs₀ : ζ}

structure SplitSys.Works (sys : SplitSys) : Prop where
  opens : ∀ fn, sys.opens fn = true
  writes : ∀ fn n, sys.writes fn n = n

/-- the input that is left: the rest of `ibuf`, and the pieces that `read` will give -/
structure InputLeft (s : GzSplit ζ) (cs : List Bytes) (left : Bytes) : Prop where
  reads : s.reads = cs.map some
  pieces : ∀ c ∈ cs, c ≠ []
  left : s.input ++ cs.flatten = left

structure Between (zs₀ : ζ) (s : GzSplit ζ) (cs : List Bytes) (left : Bytes) : Prop
    extends InputLeft s cs left where
  zs : s.zs = zs₀
  used : s.used = []
  fd : s.fd = none
  availOut : s.availOut = sizeofObuf

/-- the state inside of a member: what the file has and what is in front of `next_in` is the part of
the member that was read -/
structure Midway (g : GzipMember z) (fn : SplitFile) (files : SplitFiles) (rest : Bytes)
    (s : GzSplit ζ) (cs : List Bytes) (i o : ℕ) : Prop
    extends InputLeft s cs (g.bytes.drop i ++ rest) where
  within : z.Within g.bytes s.zs i o
  lt : i < g.bytes.length
  le : o ≤ g.content.length
  drained : s.input = [] → s.used = []
  fd : s.fd = some fn
  file : ∃ w, s.files = Function.update files fn (some w) ∧ w ++ s.used = g.bytes.take i
  availOut : s.availOut = sizeofObuf

/-- the state behind a member: its file is complete -/
structure Behind (zs₀ : ζ) (g : GzipMember z) (fn : SplitFile) (files : SplitFiles) (rest : Bytes)
    (s : GzSplit ζ) (cs : List Bytes) : Prop extends Between zs₀ s cs rest where
  ret : s.r = .streamEnd
  files : s.files = Function.update files fn (some g.bytes)

variable {cs : List Bytes} {rest : Bytes} {i o n : ℕ} {fn : SplitFile} {files : SplitFiles} {rc : ℤ}

variable {s : GzSplit ζ} {g : GzipMember z} {input w : Bytes}

/-- from one state to a later one: some pieces were read, and `ibuf` has no more than the last of them -/
def ReadOn (s : GzSplit ζ) (cs : List Bytes) (s' : GzSplit ζ) (cs' : List Bytes) : Prop :=
  ∃ pre, cs = pre ++ cs' ∧ s'.input.length ≤ pre.getLast?.elim s.input.length List.length

theorem ReadOn.trans {s' s'' : GzSplit ζ} {cs' cs'' : List Bytes} (h : ReadOn s cs s' cs')
    (h' : ReadOn s' cs' s'' cs'') : ReadOn s cs s'' cs'' := by
  obtain ⟨pre, rfl, hlen⟩ := h
  obtain ⟨pre', rfl, hlen'⟩ := h'
  refine ⟨pre ++ pre', (append_assoc _ _ _).symm, ?_⟩
  rw [getLast?_append]
  cases hlast : pre'.getLast? with
  | none =>
    rw [hlast] at hlen'
    exact hlen'.trans hlen
  | some c =>
    rw [hlast] at hlen'
    exact hlen'

variable (sys zs₀ g fn files rest rc) in
/-- a round that gets ahead in the input or in the content -/
def RoundTo (s : GzSplit ζ) (cs : List Bytes) (n : ℕ) : Prop :=
  ∃ s' cs' i o, gzRound z sys s = .ok s' ∧ ReadOn s cs s' cs' ∧ s'.rc = rc ∧ n < i + o ∧
    i ≤ g.bytes.length ∧ o ≤ g.content.length ∧
    (Midway g fn files rest s' cs' i o ∨ Behind zs₀ g fn files rest s' cs')

variable (sys zs₀ g fn files rest rc) in
/-- rounds up to the end of the member -/
def LoopTo (s : GzSplit ζ) (cs : List Bytes) (n : ℕ) : Prop :=
  ∃ s' cs' j, j ≤ n ∧ (∀ fuel, gzLoop z sys (fuel + j) s = gzLoop z sys fuel s') ∧
    ReadOn s cs s' cs' ∧ s'.rc = rc ∧ Behind zs₀ g fn files rest s' cs'

theorem gzRead_left {left : Bytes} (h : InputLeft s cs left) (hleft : left ≠ [])
    (hused : s.input = [] → s.used = []) :
    ∃ input reads cs', gzRead s = .ok { s with input := input, reads := reads } ∧
      InputLeft { s with input := input, reads := reads } cs' left ∧ input ≠ [] ∧
      (input = s.input ∧ cs = cs' ∨ s.input = [] ∧ cs = input :: cs') := by
  by_cases hin : s.input = []
  · obtain ⟨hreads, hpieces, hl⟩ := h
    cases cs with
    | nil => exact absurd (by rw [← hl, hin]; rfl) hleft
    | cons c cs =>
      refine ⟨c, cs.map some, cs, ?_, ⟨rfl, ?_, ?_⟩, ?_, Or.inr ⟨hin, rfl⟩⟩
      · rw [gzRead, if_neg (not_not.2 hin), hreads]
        simp [hused hin]
      · exact fun d hd => hpieces d (mem_cons_of_mem _ hd)
      · rw [← hl, hin]
        rfl
      · exact hpieces c mem_cons_self
  · exact ⟨s.input, s.reads, cs, by rw [gzRead, if_pos hin], h, hin, Or.inl ⟨rfl, rfl⟩⟩

theorem GzipMember.call_left (g : GzipMember z) (h : InputLeft s cs (g.bytes.drop i ++ rest))
    (hw : z.Within g.bytes s.zs i o) (hne : s.input ≠ []) (ha : s.availOut = sizeofObuf) :
    Continues g.bytes i s.input ∧ InflateCall g.bytes g.content g.ready i o s.input sizeofObuf
        (z.inflate s.zs s.input s.availOut) := by
  have hcont : Continues g.bytes i s.input :=
    prefix_or_prefix_of_prefix ⟨_, h.left⟩ (prefix_append _ _)
  rw [ha]
  exact ⟨hcont, g.call _ _ _ _ _ hw hne hcont (by decide)⟩

theorem input_split {m tail : Bytes} {used : ℕ} (h : input ++ tail = m.drop i ++ rest)
    (hused : used ≤ input.length) (hle : i + used ≤ m.length) :
    m.take i ++ input.take used = m.take (i + used) ∧
      input.drop used ++ tail = m.drop (i + used) ++ rest := by
  have htake : input.take used = (m.drop i).take used := by
    have := congrArg (take used) h
    rwa [take_append_of_le_length hused, take_append_of_le_length (by rw [length_drop]; omega)] at this
  have hdrop := congrArg (drop used) h
  rw [drop_append_of_le_length hused,
    drop_append_of_le_length (by rw [length_drop]; omega), drop_drop] at hdrop
  exact ⟨by rw [htake, take_add], hdrop⟩

theorem gzMemberEnd_end (hinit : z.inflateInit2 = some zs₀) (hr : s.r = .streamEnd) :
    gzMemberEnd z s = .ok { s with fd := none, zs := zs₀ } := by
  rw [gzMemberEnd, if_pos hr, hinit]

theorem gzMemberEnd_ok (hr : s.r = .ok) : gzMemberEnd z s = .ok s := by
  rw [gzMemberEnd, if_neg (by rw [hr]; decide)]

def inflated (s : GzSplit ζ) (x : Inflated ζ) : GzSplit ζ :=
  { s with
    zs := x.zs
    r := x.ret
    used := s.used ++ s.input.take x.used
    input := s.input.drop x.used
    obuf := x.out ++ s.obuf.drop x.out.length
    availOut := sizeofObuf - x.out.length }

theorem gzInflate_eq (havail : s.availOut = sizeofObuf)
    (hret : (z.inflate s.zs s.input s.availOut).ret ≠ .error) :
    gzInflate z s = .ok (inflated s (z.inflate s.zs s.input s.availOut)) := by
  rw [havail] at hret
  rw [gzInflate]
  simp [havail, if_neg hret, inflated]

theorem gzOutput_open (hfd : s.fd = some fn) (havail : s.availOut ≤ sizeofObuf) :
    gzOutput sys s = .ok { s with availOut := sizeofObuf } := by
  unfold gzOutput
  by_cases hlen : sizeofObuf - s.availOut = 0
  · have : s.availOut = sizeofObuf := by omega
    rw [if_pos hlen, ← this]
  · simp [if_neg hlen, if_neg (show s.fd ≠ none by simp [hfd])]

theorem gzSection_head (hobuf : s.obuf = out ++ rest) (hout : out <+: content)
    (htold : ToldBy content out.length fn) (hsection : HoldsSection content fn)
    (hrc : fn = .data → s.rc = 1) :
    gzSection s out.length = .ok (fn, if fn = .data then 2 else s.rc) := by
  have hsign : 6 < out.length → (0 : UInt8) ∈ content.take out.length →
      findSection s.obuf out.length (lit ".SIGN.") =
        some (decide (lit ".SIGN." <+: headName content)) := by
    rw [← sign_length, hobuf]
    exact findSection_head rest _ hout
  have hinfo : 8 < out.length → (0 : UInt8) ∈ content.take out.length →
      findSection s.obuf out.length (lit ".PKGINFO") =
        some (decide (lit ".PKGINFO" <+: headName content)) := by
    rw [← pkginfo_length, hobuf]
    exact findSection_head rest _ hout
  rw [gzSection]
  cases fn with
  | signatures =>
    rw [hsign htold.1 htold.2, decide_eq_true (show lit ".SIGN." <+: headName content from hsection)]
    rfl
  | control =>
    obtain ⟨hlen, hzero⟩ := htold
    rw [hsign (by omega) hzero, hinfo hlen hzero, decide_eq_false (not_sign_of_pkginfo hsection),
      decide_eq_true (show lit ".PKGINFO" <+: headName content from hsection)]
    rfl
  | data =>
    have hno : findSection s.obuf out.length (lit ".SIGN.") = some false ∧
        findSection s.obuf out.length (lit ".PKGINFO") = some false := by
      obtain ⟨-, hshort | hzero⟩ := htold
      · exact ⟨if_pos (by rwa [sign_length]), if_pos (by rw [pkginfo_length]; omega)⟩
      rw [decide_eq_false hsection.1] at hsign
      rw [decide_eq_false hsection.2] at hinfo
      refine ⟨?_, ?_⟩
      · rcases Nat.lt_or_ge 6 out.length with h | h
        · exact hsign h hzero
        · exact if_pos (by rwa [sign_length])
      · rcases Nat.lt_or_ge 8 out.length with h | h
        · exact hinfo h hzero
        · exact if_pos (by rwa [pkginfo_length])
    rw [hno.1, hno.2]
    simp [hrc]

theorem gzOutput_head (hsys : sys.Works) (hobuf : s.obuf = out ++ rest) (hout : out <+: content)
    (htold : ToldBy content out.length fn) (hsection : HoldsSection content fn)
    (hrc : fn = .data → s.rc = 1) (hfd : s.fd = none)
    (havail : sizeofObuf - s.availOut = out.length) :
    gzOutput sys s = .ok { s with
      rc := if fn = .data then 2 else s.rc
      fd := some fn
      files := update s.files fn (some [])
      availOut := sizeofObuf } := by
  have hpos : out.length ≠ 0 := by
    cases fn <;> have := htold.1 <;> omega
  rw [gzOutput]
  simp only [havail, if_neg hpos, hfd, if_true, gzOpen, gzSection_head hobuf hout htold hsection hrc,
    hsys.opens]

/-- the first piece of the input that ends in the member ends where the member can be told -/
structure CutWell (g : GzipMember z) (fn : SplitFile) (input : Bytes) (cs : List Bytes) : Prop where
  here : input ≠ [] → input.length < g.bytes.length → ToldBy g.content (g.ready input.length) fn
  next : input = [] → ∀ c cs', cs = c :: cs' → c ≠ [] → c.length < g.bytes.length →
    ToldBy g.content (g.ready c.length) fn

theorem toldBy_of_le (hhead : ArchiveHead content) (hn : 512 ≤ n) (fn : SplitFile) :
    ToldBy content n fn := by
  have hzero : (0 : UInt8) ∈ content.take n := (take_prefix_take_left hn).subset hhead.zero
  cases fn
  · exact ⟨by omega, hzero⟩
  · exact ⟨by omega, hzero⟩
  · exact ⟨by omega, Or.inr hzero⟩

theorem InflateCall.toldBy {x : Inflated ζ}
    (h : InflateCall g.bytes g.content g.ready 0 0 input sizeofObuf x)
    (hhead : ArchiveHead g.content)
    (hcut : input.length < g.bytes.length → ToldBy g.content (g.ready input.length) fn) :
    ToldBy g.content x.out.length fn := by
  rcases h.ret with ⟨-, -, ho⟩ | ⟨-, hi, ho | ⟨hused, ho⟩⟩
  · refine toldBy_of_le hhead ?_ fn
    have := hhead.block
    omega
  · exact toldBy_of_le hhead (by rw [ho]; decide) fn
  rw [Nat.zero_add, hused] at hi
  rw [Nat.zero_add, Nat.zero_add, hused] at ho
  rw [ho]
  exact hcut hi

theorem gzLoop_ok {s' : GzSplit ζ} (h : gzRound z sys s = .ok s') (fuel : ℕ) :
    gzLoop z sys (fuel + 1) s = gzLoop z sys fuel s' := by
  rw [gzLoop, h]

theorem RoundTo.loop (h : RoundTo sys zs₀ rest fn files rc g s cs n)
    (hmid : ∀ s cs i o, n < i + o → i ≤ g.bytes.length → o ≤ g.content.length →
      Midway g fn files rest s cs i o →
      LoopTo sys zs₀ rest fn files s.rc g s cs (g.bytes.length + g.content.length - (i + o))) :
    LoopTo sys zs₀ rest fn files rc g s cs (g.bytes.length + g.content.length - n) := by
  obtain ⟨s₁, cs₁, i, o, hround, hcs, hrc, hlt, hi, ho, h | hend⟩ := h
  · obtain ⟨s', cs', j, hj, hloop, hcs', hrc', hend⟩ := hmid s₁ cs₁ i o hlt hi ho h
    refine ⟨s', cs', j + 1, by omega, fun fuel => ?_, hcs.trans hcs', hrc'.trans hrc, hend⟩
    rw [← Nat.add_assoc, gzLoop_ok hround, hloop]
  · exact ⟨s₁, cs₁, 1, by omega, gzLoop_ok hround, hcs, hrc, hend⟩

section

variable (hsys : sys.Works) (hinit : z.inflateInit2 = some zs₀)
include hsys hinit

/-- the end of a round: the input that was used is written when there is no more of it, or at the end
of the member -/
theorem gzWrite_rule (s : GzSplit ζ)
    (hleft : InputLeft s cs (g.bytes.drop i ++ rest)) (hfd : s.fd = some fn)
    (hfiles : s.files = update files fn (some w)) (hw : w ++ s.used = g.bytes.take i)
    (ho : o ≤ g.content.length) (havail : s.availOut = sizeofObuf)
    (hr : s.r = .streamEnd ∧ i = g.bytes.length ∨ s.r = .ok ∧ i < g.bytes.length ∧ z.Within g.bytes s.zs i o) :
    ∃ s', (gzWrite sys s >>= gzMemberEnd z) = .ok s' ∧ s'.rc = s.rc ∧ s'.input = s.input ∧
      (Midway g fn files rest s' cs i o ∨ Behind zs₀ g fn files rest s' cs) := by
  have hput : ∀ u : Bytes, update s.files fn ((s.files fn).map (· ++ u)) =
      update files fn (some (w ++ u)) := by
    intro u
    rw [hfiles, update_self, update_idem]
    rfl
  by_cases hcond : s.input = [] ∨ s.r = .streamEnd
  · have hwrite : gzWrite sys s =
        .ok { s with files := update files fn (some (g.bytes.take i)), used := [] } := by
      rw [gzWrite, if_pos hcond, hfd]
      simp only [hsys.writes]
      rw [if_neg (not_not.2 rfl), Int.toNat_natCast, take_length, hput, hw]
    rw [hwrite]
    rcases hr with ⟨hend, hi⟩ | ⟨hok, hi, hwithin⟩
    · refine ⟨_, gzMemberEnd_end hinit hend, rfl, rfl, Or.inr ⟨⟨?_, rfl, rfl, rfl, havail⟩, hend, ?_⟩⟩
      · have := hleft.left
        rw [hi, drop_length] at this
        exact ⟨hleft.reads, hleft.pieces, this⟩
      · simp [hi]
    · refine ⟨_, gzMemberEnd_ok hok, rfl, rfl, Or.inl ?_⟩
      exact ⟨⟨hleft.reads, hleft.pieces, hleft.left⟩, hwithin, hi, ho, fun _ => rfl, hfd,
        ⟨_, rfl, append_nil _⟩, havail⟩
  rw [not_or] at hcond
  rcases hr with ⟨hend, -⟩ | ⟨hok, hi, hwithin⟩
  · exact absurd hend hcond.2
  refine ⟨s, ?_, rfl, rfl, Or.inl ⟨hleft, hwithin, hi, ho, fun h => absurd h hcond.1, hfd,
    ⟨w, hfiles, hw⟩, havail⟩⟩
  rw [gzWrite, if_neg (not_or.2 hcond)]
  exact gzMemberEnd_ok hok

theorem gzRound_rule (hleft : InputLeft s cs (g.bytes.drop i ++ rest)) (hdrained : s.input = [] → s.used = [])
    (hi : i < g.bytes.length) (hw : z.Within g.bytes s.zs i o) (havail : s.availOut = sizeofObuf)
    (ho : o ≤ g.content.length) (hfile : w ++ s.used = g.bytes.take i)
    (houtput : ∀ input reads cs' x, input ≠ [] →
      (input = s.input ∧ cs = cs' ∨ s.input = [] ∧ cs = input :: cs') →
      InflateCall g.bytes g.content g.ready i o input sizeofObuf x →
      gzOutput sys (inflated { s with input := input, reads := reads } x) =
        .ok { inflated { s with input := input, reads := reads } x with
          rc := rc, fd := some fn, files := update files fn (some w), availOut := sizeofObuf }) :
    RoundTo sys zs₀ rest fn files rc g s cs (i + o) := by
  have hrest : g.bytes.drop i ++ rest ≠ [] := by
    intro hnil
    have := drop_eq_nil_iff.1 (append_eq_nil_iff.1 hnil).1
    omega
  obtain ⟨input, reads, cs', hread, hleft', hne, hpiece⟩ := gzRead_left hleft hrest hdrained
  obtain ⟨hcont, hcall⟩ : Continues g.bytes i input ∧ InflateCall g.bytes g.content g.ready i o input
      sizeofObuf (z.inflate s.zs input s.availOut) := g.call_left hleft' hw hne havail
  have hwithin := fun hok => Zlib.Within.call input s.availOut hw hcont (by rw [havail]; decide) hok
  have hret : (z.inflate s.zs input s.availOut).ret ≠ .error := by
    rcases hcall.ret with ⟨h, -⟩ | ⟨h, -⟩ <;> rw [h] <;> decide
  have hround : gzRound z sys s = (gzInflate z { s with input := input, reads := reads } >>= fun s =>
      gzOutput sys s >>= fun s => gzWrite sys s >>= gzMemberEnd z) := by
    rw [gzRound, hread]
    simp [bind, Except.bind, hne]
  rw [gzInflate_eq (s := { s with input := input, reads := reads }) havail hret] at hround
  simp only [bind, Except.bind] at hround
  rw [houtput input reads cs' _ hne hpiece hcall] at hround
  generalize z.inflate s.zs input s.availOut = x at *
  have hle : i + x.used ≤ g.bytes.length := by
    rcases hcall.ret with ⟨-, h, -⟩ | ⟨-, h, -⟩ <;> omega
  have hout : o + x.out.length ≤ g.content.length := by
    have := hcall.out.length_le
    rw [length_drop] at this
    omega
  have hmore : i + o < i + x.used + (o + x.out.length) := by
    have hpos := length_pos_of_ne_nil hne
    have hroom : 0 < sizeofObuf := by decide
    rcases hcall.ret with ⟨-, h, -⟩ | ⟨-, -, h | ⟨h, -⟩⟩ <;> omega
  obtain ⟨htake, hdrop⟩ := input_split hleft'.left hcall.used hle
  have hused : w ++ (s.used ++ input.take x.used) = g.bytes.take (i + x.used) := by
    rw [← htake, ← hfile, append_assoc]
  obtain ⟨s', hs', hrc, hinput, hend⟩ := gzWrite_rule hsys hinit
    { inflated { s with input := input, reads := reads } x with
      rc := rc, fd := some fn, files := update files fn (some w), availOut := sizeofObuf }
    ⟨hleft'.reads, hleft'.pieces, hdrop⟩ rfl rfl hused hout rfl (by
      rcases hcall.ret with ⟨h, hi, -⟩ | ⟨h, hi, -⟩
      · exact Or.inl ⟨h, hi⟩
      · exact Or.inr ⟨h, hi, hwithin h⟩)
  have hlen : s'.input.length ≤ input.length := by
    rw [hinput]
    exact (drop_suffix _ _).length_le
  refine ⟨s', cs', _, _, hround.trans hs', ?_, hrc, hmore, hle, hout, hend⟩
  rcases hpiece with ⟨rfl, rfl⟩ | ⟨-, rfl⟩
  · exact ⟨[], rfl, hlen⟩
  · exact ⟨[input], rfl, hlen⟩

theorem gzRound_midway (h : Midway g fn files rest s cs i o) :
    RoundTo sys zs₀ rest fn files s.rc g s cs (i + o) := by
  obtain ⟨w, hfiles, hw⟩ := h.file
  refine gzRound_rule hsys hinit h.toInputLeft h.drained h.lt h.within h.availOut h.le hw ?_
  intro input reads cs' x _ _ _
  rw [gzOutput_open (s := inflated { s with input := input, reads := reads } x) h.fd (Nat.sub_le _ _),
    ← h.fd, ← hfiles]
  rfl

theorem gzLoop_midway (h : Midway g fn files rest s cs i o) (hn : g.bytes.length + g.content.length - (i + o) = n) :
    LoopTo sys zs₀ rest fn files s.rc g s cs n := by
  -- every round gets ahead in the input or in the content
  induction n using Nat.strong_induction_on generalizing s cs i o with
  | _ n ih =>
    rw [← hn]
    refine (gzRound_midway hsys hinit h).loop fun s cs i o hlt hi ho h => ?_
    exact ih _ (by omega) h rfl

variable (h : Between zs₀ s cs (g.bytes ++ rest)) (hhead : ArchiveHead g.content)
  (hsection : HoldsSection g.content fn) (hrc : fn = .data → s.rc = 1)
  (hcuts : CutWell g fn s.input cs)
include h hhead hsection hrc hcuts

theorem gzRound_start :
    RoundTo sys zs₀ rest fn s.files (if fn = .data then 2 else s.rc) g s cs 0 := by
  refine gzRound_rule (i := 0) (o := 0) (w := []) hsys hinit h.toInputLeft (fun _ => h.used)
    (length_pos_of_ne_nil g.ne_nil) (h.zs ▸ Zlib.Within.init hinit) h.availOut (Nat.zero_le _)
    (by rw [h.used]; rfl) ?_
  intro input reads cs' x hne hpiece hx
  have hcut : input.length < g.bytes.length → ToldBy g.content (g.ready input.length) fn := by
    rcases hpiece with ⟨rfl, -⟩ | ⟨hin, hcs⟩
    · exact hcuts.here hne
    · exact hcuts.next hin input cs' hcs hne
  have hlenout : sizeofObuf - (sizeofObuf - x.out.length) = x.out.length := by
    have := hx.room
    omega
  rw [gzOutput_head (s := inflated { s with input := input, reads := reads } x) hsys rfl hx.out
    (hx.toldBy hhead hcut) hsection hrc h.fd hlenout]
  rfl

theorem gzLoop_member : LoopTo sys zs₀ rest fn s.files (if fn = .data then 2 else s.rc) g s cs
      (g.bytes.length + g.content.length) :=
  (gzRound_start hsys hinit h hhead hsection hrc hcuts).loop
    fun _ _ _ _ _ _ _ h => gzLoop_midway hsys hinit h rfl

end

end

structure SplitPackage {ζ : Type} (z : Zlib ζ) where
  member : SplitFile → GzipMember z
  head : ∀ fn, ArchiveHead (member fn).content
  holds : ∀ fn, HoldsSection (member fn).content fn

open SplitPackage

namespace SplitPackage

variable {ζ : Type} {z : Zlib ζ} (p : SplitPackage z)

def bytes : Bytes :=
  (p.member .signatures).bytes ++ ((p.member .control).bytes ++ (p.member .data).bytes)

def start : SplitFile → ℕ
  | .signatures => 0
  | .control => (p.member .signatures).bytes.length
  | .data => (p.member .signatures).bytes.length + (p.member .control).bytes.length

def rounds (fn : SplitFile) : ℕ := (p.member fn).bytes.length + (p.member fn).content.length

/-- a `read` that ends inside of a member, and is the first to give bytes of it, ends where the member
can be told -/
def ReadsWell (chunks : List Bytes) : Prop :=
  ∀ fn pre c, pre ++ [c] <+: chunks → pre.flatten.length ≤ p.start fn →
    ∀ b, (pre ++ [c]).flatten.length = p.start fn + b → 0 < b → b < (p.member fn).bytes.length →
      ToldBy (p.member fn).content ((p.member fn).ready b) fn

theorem ReadsWell.cuts {p : SplitPackage z} {chunks : List Bytes} (h : p.ReadsWell chunks)
    {fn : SplitFile} {s₀ s : GzSplit ζ} {cs : List Bytes} (hin : s₀.input = [])
    (hcs : ReadOn s₀ chunks s cs)
    (hlen : chunks.flatten.length = p.start fn + (s.input.length + cs.flatten.length)) :
    CutWell (p.member fn) fn s.input cs := by
  obtain ⟨pre, rfl, hlast⟩ := hcs
  rw [flatten_append, length_append] at hlen
  refine ⟨fun hne hlt => ?_, fun hnil c cs' hcs hne hlt => ?_⟩
  · -- what is left in `ibuf` is the end of the last piece
    have hpos := length_pos_of_ne_nil hne
    rcases eq_nil_or_concat' pre with rfl | ⟨pre, c, rfl⟩
    · rw [getLast?_nil, hin] at hlast
      exact absurd hpos (Nat.not_lt.2 hlast)
    rw [getLast?_concat] at hlast
    have hc : s.input.length ≤ c.length := hlast
    refine h fn pre c (prefix_append _ _) ?_ _ (by omega) hpos hlt
    rw [flatten_concat, length_append] at hlen
    omega
  · subst hcs
    rw [hnil, length_nil, flatten_cons, length_append] at hlen
    refine h fn pre c ⟨cs', by simp⟩ (by omega) _ ?_ (length_pos_of_ne_nil hne) hlt
    rw [flatten_concat, length_append]
    omega

end SplitPackage

/-- the size of the block, in bytes 11 and 12 of a member -/
def storedLen (seen : Bytes) : ℕ := (seen.getD 11 0).toNat + 256 * (seen.getD 12 0).toNat

/-- `inflate` for members with a header of ten bytes and one stored block, without looking at the
header and the checksum; the state is the bytes it has read -/
def storedInflate : Bytes → Bytes → ℕ → Inflated Bytes
  | seen, [], _ => ⟨.ok, seen, 0, []⟩
  | seen, b :: input, n =>
    if seen.length < 15 then
      let x := storedInflate (seen ++ [b]) input n
      { x with used := x.used + 1 }
    else if seen.length < 15 + storedLen seen then
      if n = 0 then ⟨.ok, seen, 0, []⟩
      else
        let x := storedInflate (seen ++ [b]) input (n - 1)
        { x with used := x.used + 1, out := b :: x.out }
    else if seen.length + 1 < 15 + storedLen seen + 8 then
      let x := storedInflate (seen ++ [b]) input n
      { x with used := x.used + 1 }
    else ⟨.streamEnd, seen ++ [b], 1, []⟩

def storedZlib : Zlib Bytes := ⟨some [], storedInflate⟩

/-- the header of a member, and that of a block of `n` bytes -/
def storedHead (n : ℕ) : Bytes :=
  [0x1f, 0x8b, 8, 0, 0, 0, 0, 0, 0, 3, 1, UInt8.ofNat n, UInt8.ofNat (n / 256),
    UInt8.ofNat (255 - n % 256), UInt8.ofNat (255 - n / 256)]

/-- a member with the checksum and the size at its end -/
def storedBytes (content tail : Bytes) : Bytes := storedHead content.length ++ (content ++ tail)

theorem storedHead_length {n : ℕ} : (storedHead n).length = 15 := rfl

/-- how much of the content is in the first bytes of a member -/
def storedReady (content : Bytes) (i : ℕ) : ℕ := min (i - 15) content.length

section

variable {content tail : Bytes}

theorem storedBytes_length (content : Bytes) (htail : tail.length = 8) :
    (storedBytes content tail).length = 15 + content.length + 8 := by
  simp only [storedBytes, length_append, storedHead_length]
  omega

variable {i n : ℕ} {input m : Bytes} {b : UInt8}

theorem storedLen_take (hlen : content.length < 2 ^ 16) (hi : 15 ≤ i) :
    storedLen ((storedBytes content tail).take i) = content.length := by
  obtain ⟨k, rfl⟩ := Nat.exists_eq_add_of_le hi
  have htake : (storedBytes content tail).take (15 + k) =
      storedHead content.length ++ (content ++ tail).take k := by
    rw [← storedHead_length]
    exact take_length_add_append k
  rw [htake]
  simp [storedLen, storedHead]
  omega

theorem storedBytes_drop (hi : 15 ≤ i) (hlt : i < 15 + content.length)
    (h : (storedBytes content tail).drop i = b :: m) :
    content.drop (i - 15) = b :: content.drop (i - 15 + 1) := by
  obtain ⟨k, rfl⟩ := Nat.exists_eq_add_of_le hi
  have hdrop : (storedBytes content tail).drop (15 + k) = (content ++ tail).drop k := by
    rw [← storedHead_length]
    exact drop_length_add_append k
  have hk : k < content.length := by omega
  rw [hdrop, drop_append_of_le_length hk.le, drop_eq_getElem_cons hk, cons_append, cons.injEq] at h
  rw [Nat.add_sub_cancel_left, drop_eq_getElem_cons hk, h.1]

theorem Continues.step (hi : i < m.length) (h : Continues m i (b :: input)) :
    m.drop i = b :: m.drop (i + 1) ∧ m.take i ++ [b] = m.take (i + 1) ∧ Continues m (i + 1) input := by
  have hdrop := drop_eq_getElem_cons hi
  rw [Continues, hdrop, cons_prefix_cons, cons_prefix_cons] at h
  have hb : b = m[i] := by
    rcases h with h | h
    · exact h.1
    · exact h.1.symm
  rw [hb]
  refine ⟨hdrop, take_concat_get' m i hi, ?_⟩
  rcases h with h | h
  · exact Or.inl h.2
  · exact Or.inr h.2

variable (content tail) in
structure StoredCall (i : ℕ) (input : Bytes) (n : ℕ) (x : Inflated Bytes) : Prop
    extends InflateCall (storedBytes content tail) content (storedReady content) i
      (storedReady content i) input n x where
  zs : x.ret = .ok → x.zs = (storedBytes content tail).take (i + x.used)
  ready : x.ret = .ok → storedReady content i + x.out.length = storedReady content (i + x.used)

theorem StoredCall.cons {i n : ℕ} {input : Bytes} {x : Inflated Bytes} (b : UInt8) (out : Bytes)
    (h : StoredCall content tail (i + 1) input n x)
    (hready : storedReady content (i + 1) = storedReady content i + out.length)
    (hout : content.drop (storedReady content i) = out ++ content.drop (storedReady content (i + 1))) :
    StoredCall content tail i (b :: input) (n + out.length)
      { x with used := x.used + 1, out := out ++ x.out } := by
  have hi : i + (x.used + 1) = i + 1 + x.used := by omega
  refine ⟨⟨Nat.succ_le_succ h.used, ?_, ?_, ?_⟩, fun hr => ?_, fun hr => ?_⟩
  · have := h.room
    simp only [length_append]
    omega
  · rw [hout]
    exact (prefix_append_right_inj out).2 h.out
  · simp only [length_append, length_cons, hi]
    rcases h.ret with ⟨h1, h2, h3⟩ | ⟨h1, h2, h3 | ⟨h3, h4⟩⟩
    · exact Or.inl ⟨h1, h2, by omega⟩
    · exact Or.inr ⟨h1, h2, Or.inl (by omega)⟩
    · exact Or.inr ⟨h1, h2, Or.inr ⟨by omega, by omega⟩⟩
  · rw [hi]
    exact h.zs hr
  · have := h.ready hr
    simp only [length_append, hi]
    omega

theorem StoredCall.none (hi : i < (storedBytes content tail).length) (h : input = [] ∨ n = 0) :
    StoredCall content tail i input n ⟨.ok, (storedBytes content tail).take i, 0, []⟩ := by
  refine ⟨⟨Nat.zero_le _, Nat.zero_le _, nil_prefix, Or.inr ⟨rfl, hi, ?_⟩⟩, fun _ => rfl, fun _ => rfl⟩
  rcases h with rfl | rfl
  · exact Or.inr ⟨rfl, rfl⟩
  · exact Or.inl rfl

theorem storedInflate_call (htail : tail.length = 8) (hlen : content.length < 2 ^ 16)
    (hi : i < (storedBytes content tail).length)
    (hcont : Continues (storedBytes content tail) i input) :
    StoredCall content tail i input n (storedInflate ((storedBytes content tail).take i) input n) := by
  have hsize := storedBytes_length content htail
  induction input generalizing i n with
  | nil => exact StoredCall.none hi (Or.inl rfl)
  | cons b input ih =>
    obtain ⟨hdrop, htake, hcont'⟩ := hcont.step hi
    have hseen : ((storedBytes content tail).take i).length = i := length_take_of_le hi.le
    -- a byte of the headers or of the tail
    have hskip : storedReady content (i + 1) = storedReady content i →
        i + 1 < (storedBytes content tail).length → StoredCall content tail i (b :: input) n
          { storedInflate ((storedBytes content tail).take (i + 1)) input n with
            used := (storedInflate ((storedBytes content tail).take (i + 1)) input n).used + 1 } := by
      intro hready hi'
      exact (ih hi' hcont').cons b [] hready (by rw [hready]; rfl)
    rw [storedInflate, htake, hseen]
    by_cases h1 : i < 15
    · rw [if_pos h1]
      exact hskip (by unfold storedReady; omega) (by omega)
    rw [if_neg h1, storedLen_take hlen (by omega)]
    by_cases h2 : i < 15 + content.length
    · rw [if_pos h2]
      by_cases h3 : n = 0
      · rw [if_pos h3]
        exact StoredCall.none hi (Or.inr h3)
      have hready : storedReady content i = i - 15 ∧ storedReady content (i + 1) = i - 15 + 1 := by
        unfold storedReady
        omega
      have hbyte : content.drop (storedReady content i) =
          [b] ++ content.drop (storedReady content (i + 1)) := by
        rw [hready.1, hready.2, storedBytes_drop (by omega) h2 hdrop]
        rfl
      have hcall := (ih (n := n - 1) (by omega) hcont').cons b [b] (by rw [hready.1, hready.2]; rfl) hbyte
      rw [if_neg h3]
      rwa [show n - 1 + [b].length = n by simp; omega] at hcall
    rw [if_neg h2]
    by_cases h4 : i + 1 < 15 + content.length + 8
    · rw [if_pos h4]
      exact hskip (by unfold storedReady; omega) (by omega)
    rw [if_neg h4]
    refine ⟨⟨Nat.succ_le_succ (Nat.zero_le _), Nat.zero_le _, nil_prefix, Or.inl ⟨rfl, ?_, ?_⟩⟩,
      nofun, nofun⟩
    · show i + 1 = _
      omega
    · show storedReady content i + 0 = _
      unfold storedReady
      omega

theorem storedWithin (htail : tail.length = 8) (hlen : content.length < 2 ^ 16) {zs : Bytes} {o : ℕ}
    (h : storedZlib.Within (storedBytes content tail) zs i o) :
    i < (storedBytes content tail).length ∧ zs = (storedBytes content tail).take i ∧
      o = storedReady content i := by
  induction h with
  | init h =>
    have hsize := storedBytes_length content htail
    cases h
    exact ⟨by omega, rfl, by simp [storedReady]⟩
  | @call zs i o input n _ hcont hn hok ih =>
    obtain ⟨hi, rfl, rfl⟩ := ih
    have hcall := storedInflate_call htail hlen (n := n) hi hcont
    refine ⟨?_, hcall.zs hok, hcall.ready hok⟩
    rcases hcall.ret with ⟨h, -⟩ | ⟨-, h, -⟩
    · exact absurd (hok.symm.trans h) nofun
    · exact h

def storedMember (content tail : Bytes) (htail : tail.length = 8) (hlen : content.length < 2 ^ 16) :
    GzipMember storedZlib where
  bytes := storedBytes content tail
  content := content
  ready := storedReady content
  ne_nil := cons_ne_nil _ _
  call := by
    intro zs i o input n hw _ hcont _
    obtain ⟨hi, rfl, rfl⟩ := storedWithin htail hlen hw
    exact (storedInflate_call htail hlen hi hcont).toInflateCall

end

def headBlock (name : List Char) : Bytes := ascs name ++ List.replicate (512 - name.length) 0

def firstName : SplitFile → List Char
  | .signatures => ".SIGN.RSA.k".toList
  | .control => ".PKGINFO".toList
  | .data => "usr".toList

def storedPackage : SplitPackage storedZlib where
  member fn := storedMember (headBlock (firstName fn)) (List.replicate 8 0) rfl
    (by cases fn <;> decide +kernel)
  head fn := ⟨by cases fn <;> decide +kernel, by cases fn <;> decide +kernel⟩
  holds fn := by
    cases fn
    · exact show lit ".SIGN." <+: headName (headBlock ".SIGN.RSA.k".toList) by decide +kernel
    · exact show lit ".PKGINFO" <+: headName (headBlock ".PKGINFO".toList) by decide +kernel
    · exact show ¬ lit ".SIGN." <+: headName (headBlock "usr".toList) ∧
        ¬ lit ".PKGINFO" <+: headName (headBlock "usr".toList) by decide +kernel

def worksSys : SplitSys := ⟨fun _ => true, fun _ n => n⟩

theorem storedPackage_size : storedPackage.bytes.length = 1605 ∧
    storedPackage.start .signatures = 0 ∧ storedPackage.start .control = 535 ∧
    storedPackage.start .data = 1070 ∧ ∀ fn, (storedPackage.member fn).bytes.length = 535 := by
  refine ⟨by decide +kernel, rfl, by decide +kernel, by decide +kernel, fun fn => ?_⟩
  cases fn <;> decide +kernel

/-- two reads, of which the first ends in the data, after three bytes of its content -/
def storedReads : List Bytes := [storedPackage.bytes.take 1088, storedPackage.bytes.drop 1088]

theorem storedReads_well : storedPackage.ReadsWell storedReads := by
  obtain ⟨hsize, h0, h1, h2, hmember⟩ := storedPackage_size
  intro fn pre c hpre hbefore b hlen hpos hlt
  rw [hmember] at hlt
  have hstart : storedPackage.start fn ≤ 1070 ∧ (storedPackage.start fn = 1070 → fn = .data) ∧
      (storedPackage.start fn + 535 ≤ 1070 ∨ storedPackage.start fn = 1070) := by
    cases fn <;> simp [h0, h1, h2]
  have hlens : (pre ++ [c]).flatten.length = 0 ∨ (pre ++ [c]).flatten.length = 1088 ∨
      (pre ++ [c]).flatten.length = 1605 := by
    have hmem := (mem_inits _ storedReads).2 hpre
    simp only [storedReads, inits, map_cons, map_nil, mem_cons, not_mem_nil, or_false] at hmem
    rcases hmem with h | h | h
    · exact Or.inl (by rw [h]; rfl)
    · refine Or.inr (Or.inl ?_)
      rw [h, flatten_singleton, length_take, hsize]
      rfl
    · refine Or.inr (Or.inr ?_)
      rw [h, flatten_cons, flatten_singleton, take_append_drop, hsize]
  obtain ⟨rfl, rfl⟩ : fn = .data ∧ b = 18 := by
    have hdata : storedPackage.start fn = 1070 := by omega
    exact ⟨hstart.2.1 hdata, by omega⟩
  exact show 0 < storedReady (headBlock "usr".toList) 18 ∧
    (storedReady (headBlock "usr".toList) 18 ≤ 6 ∨ (0 : UInt8) ∈ (headBlock "usr".toList).take
      (storedReady (headBlock "usr".toList) 18)) by
      decide +kernel

end Alpine
