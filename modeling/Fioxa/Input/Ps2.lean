import Mathlib.Data.List.Forall2

/-! # The PS/2 keyboard and mouse

Both drivers get one byte at an interrupt and make events of them: `ScancodeSet2::add_byte`
(`ps2/src/scancode/set2.rs`) and `Mouse::check_interrupts` (`ps2/src/mouse.rs`). What they make of a
whole stream is a matter of what they make of the bytes of one key event or packet. -/

namespace Fioxa.Ps2

open List Option

/-! ## Decoders -/

section feed

variable {σ β ε ι : Type} {step : σ → β → Option (σ × Option ε)} {s : σ} {bs cs : List β}

/-- The bytes of a stream, one after the other: the state afterwards and the events. A step that
    panics is `none`. -/
def feed (step : σ → β → Option (σ × Option ε)) : σ → List β → Option (σ × List ε)
  | s, [] => some (s, [])
  | s, b :: bs =>
    (step s b).bind fun r => (feed step r.1 bs).map fun t => (t.1, r.2.toList ++ t.2)

theorem feed_append : feed step s (bs ++ cs)
    = (feed step s bs).bind fun r => (feed step r.1 cs).map fun t => (t.1, r.2 ++ t.2) := by
  induction bs generalizing s with
  | nil => simp [feed]
  | cons b bs ih =>
    simp [feed, ih, map_bind, bind_map, bind_assoc, Function.comp_def]

/-- A stream of parts that each bring one event and the decoder back to where it was. -/
theorem feed_flatMap {enc : ι → List β} {ev : ι → ε} {xs : List ι}
    (h : ∀ x, feed step s (enc x) = some (s, [ev x])) :
    feed step s (xs.flatMap enc) = some (s, xs.map ev) := by
  induction xs with
  | nil => rfl
  | cons x xs ih =>
    rw [flatMap_cons, feed_append, h, bind_some, ih]
    rfl

/-- Bytes that are ignored in every state can be left out. -/
theorem feed_filter {p : β → Bool} (h : ∀ s b, p b = false → step s b = some (s, none)) :
    feed step s (bs.filter p) = feed step s bs := by
  induction bs generalizing s with
  | nil => rfl
  | cons b bs ih =>
    cases hb : p b with
    | true => simp [hb, feed, ih]
    | false => simp [hb, feed, ih, h s b hb]

end feed

/-! ## The keyboard -/

inductive Modifier where
  | leftShift | rightShift | leftAlt | rightAlt | leftWindows | rightWindows | leftControl
  | rightControl | capsLock | scrollLock | numLock

inductive Control where
  | escape | enter | space | backspace | delete | tab | insert | home | «end» | pageUp | pageDown
  | arrowLeft | arrowRight | arrowUp | arrowDown | printScreen | pauseBreak

inductive Number where
  | n0 | n1 | n2 | n3 | n4 | n5 | n6 | n7 | n8 | n9

inductive Numpad where
  | n0 | n1 | n2 | n3 | n4 | n5 | n6 | n7 | n8 | n9 | div | mul | sub | add | enter | period

inductive Letter where
  | a | b | c | d | e | f | g | h | i | j | k | l | m | n | o | p | q | r | s | t | u | v | w | x
  | y | z

inductive Misc where
  | hyphen | equals | comma | period | semiColon | forwardSlash | backSlash | backTick
  | leftBracket | rightBracket | quote | menuKey

inductive Function where
  | f0 | f1 | f2 | f3 | f4 | f5 | f6 | f7 | f8 | f9 | f10 | f11 | f12 | f13 | f14 | f15 | f16 | f17
  | f18 | f19 | f20 | f21 | f22 | f23 | f24

inductive VirtualKeyCode where
  | modifier (key : Modifier)
  | control (key : Control)
  | number (key : Number)
  | numpad (key : Numpad)
  | letter (key : Letter)
  | misc (key : Misc)
  | function (key : Function)

inductive KeyboardEvent where
  | up (key : VirtualKeyCode)
  | down (key : VirtualKeyCode)

def mapScancode (code : UInt8) : Option VirtualKeyCode :=
  lookup code
    [(0x01, .function .f9), (0x03, .function .f5), (0x04, .function .f3), (0x05, .function .f1),
      (0x06, .function .f2), (0x07, .function .f12), (0x09, .function .f10), (0x0A, .function .f8),
      (0x0B, .function .f6), (0x0C, .function .f4), (0x0D, .control .tab), (0x0E, .misc .backTick),
      (0x11, .modifier .leftAlt), (0x12, .modifier .leftShift), (0x14, .modifier .leftControl),
      (0x15, .letter .q), (0x16, .number .n1), (0x1A, .letter .z), (0x1B, .letter .s),
      (0x1C, .letter .a), (0x1D, .letter .w), (0x1E, .number .n2), (0x21, .letter .c),
      (0x22, .letter .x), (0x23, .letter .d), (0x24, .letter .e), (0x25, .number .n4),
      (0x26, .number .n3), (0x29, .control .space), (0x2A, .letter .v), (0x2B, .letter .f),
      (0x2C, .letter .t), (0x2D, .letter .r), (0x2E, .number .n5), (0x31, .letter .n),
      (0x32, .letter .b), (0x33, .letter .h), (0x34, .letter .g), (0x35, .letter .y),
      (0x36, .number .n6), (0x3A, .letter .m), (0x3B, .letter .j), (0x3C, .letter .u),
      (0x3D, .number .n7), (0x3E, .number .n8), (0x41, .misc .comma), (0x42, .letter .k),
      (0x43, .letter .i), (0x44, .letter .o), (0x45, .number .n0), (0x46, .number .n9),
      (0x49, .misc .period), (0x4A, .misc .forwardSlash), (0x4B, .letter .l),
      (0x4C, .misc .semiColon), (0x4D, .letter .p), (0x4E, .misc .hyphen), (0x52, .misc .quote),
      (0x54, .misc .leftBracket), (0x55, .misc .equals), (0x58, .modifier .capsLock),
      (0x59, .modifier .rightShift), (0x5A, .control .enter), (0x5B, .misc .rightBracket),
      (0x5D, .misc .backSlash), (0x66, .control .backspace), (0x69, .numpad .n1),
      (0x6B, .numpad .n4), (0x6C, .numpad .n7), (0x70, .numpad .n0), (0x71, .numpad .period),
      (0x72, .numpad .n2), (0x73, .numpad .n5), (0x74, .numpad .n6), (0x75, .numpad .n8),
      (0x76, .control .escape), (0x77, .modifier .numLock), (0x78, .function .f11),
      (0x79, .numpad .add), (0x7A, .numpad .n3), (0x7B, .numpad .sub), (0x7C, .numpad .mul),
      (0x7D, .numpad .n9), (0x7E, .modifier .scrollLock), (0x83, .function .f7),
      (0xE1, .control .pauseBreak)]

def mapExtenedScancode (code : UInt8) : Option VirtualKeyCode :=
  lookup code
    [(0x11, .modifier .rightAlt), (0x14, .modifier .rightControl), (0x1F, .modifier .leftWindows),
      (0x27, .modifier .rightWindows), (0x2F, .misc .menuKey), (0x4A, .numpad .div),
      (0x5A, .numpad .enter), (0x69, .control .end), (0x6B, .control .arrowLeft),
      (0x6C, .control .home), (0x70, .control .insert), (0x71, .control .delete),
      (0x72, .control .arrowDown), (0x74, .control .arrowRight), (0x75, .control .arrowUp),
      (0x7A, .control .pageDown), (0x7D, .control .pageUp)]

inductive State where
  | start
  | release
  | extended
  | extendedRelease

def releaseCode : UInt8 := 0xF0

def extendedCode : UInt8 := 0xE0

/-- An acknowledgement. -/
def ack : UInt8 := 0xFA

/-- The state of a `ScancodeSet2` afterwards, and the event. -/
def addByte (state : State) (code : UInt8) : State × Option KeyboardEvent :=
  if code = ack then (state, none)
  else
    match state with
    | .start =>
      if code = releaseCode then (.release, none)
      else if code = extendedCode then (.extended, none)
      else (.start, (mapScancode code).map .down)
    | .release => (.start, (mapScancode code).map .up)
    | .extended =>
      if code = releaseCode then (.extendedRelease, none)
      else (.start, (mapExtenedScancode code).map .down)
    | .extendedRelease => (.start, (mapExtenedScancode code).map .up)

/-- A key of one of the two tables. -/
structure Key where
  extended : Bool
  code : UInt8
  key : VirtualKeyCode
  mapped : (if extended then mapExtenedScancode code else mapScancode code) = some key

/-- A key that is pressed or released. -/
structure KeyEvent extends Key where
  isDown : Bool

namespace KeyEvent

variable (e : KeyEvent)

/-- The bytes of scancode set 2. -/
def encode : List UInt8 :=
  (if e.extended then [extendedCode] else []) ++ (if e.isDown then [] else [releaseCode])
    ++ [e.code]

def event : KeyboardEvent := if e.isDown then .down e.key else .up e.key

/-- No key has the code of an acknowledgement or of a leading byte. -/
theorem code_ne : e.code ≠ ack ∧ e.code ≠ releaseCode ∧ e.code ≠ extendedCode := by
  have hmapped := e.mapped
  refine ⟨?_, ?_, ?_⟩ <;>
  · intro hcode
    rw [hcode] at hmapped
    cases hext : e.extended with
    | true | false => rw [hext] at hmapped; cases hmapped

theorem feed_encode : feed (fun s b => some (addByte s b)) .start e.encode
    = some (.start, [e.event]) := by
  obtain ⟨⟨extended, code, key, mapped⟩, isDown⟩ := e
  obtain ⟨hack, hrelease, hextended⟩ := code_ne ⟨⟨extended, code, key, mapped⟩, isDown⟩
  have hlead : releaseCode ≠ ack ∧ extendedCode ≠ ack ∧ extendedCode ≠ releaseCode := by decide
  cases extended <;> simp only [if_true, Bool.false_eq_true, if_false] at mapped <;>
  cases isDown <;>
  simp [encode, event, feed, addByte, hack, hrelease, hextended, hlead, mapped]

end KeyEvent

/-- **Decoding inverts the encoding**, with any number of acknowledgements in between. -/
theorem decode_encode (events : List KeyEvent) (bytes : List UInt8)
    (hbytes : bytes.filter (· ≠ ack) = events.flatMap KeyEvent.encode) :
    feed (fun s b => some (addByte s b)) .start bytes
      = some (.start, events.map KeyEvent.event) := by
  rw [← feed_filter, hbytes]
  · exact feed_flatMap KeyEvent.feed_encode
  · intro s b hb
    have hack : b = ack := by simpa using hb
    rw [hack]
    cases s <;> rfl

/-- Right control and A, with acknowledgements in between. -/
theorem decode_rightControl_a :
    feed (fun s b => some (addByte s b)) .start [0xFA, 0xE0, 0xFA, 0x14, 0x1C, 0xF0, 0xFA, 0x1C]
      = some (.start, [.down (.modifier .rightControl), .down (.letter .a), .up (.letter .a)]) :=
  decode_encode [⟨⟨true, 0x14, _, rfl⟩, true⟩, ⟨⟨false, 0x1C, _, rfl⟩, true⟩,
    ⟨⟨false, 0x1C, _, rfl⟩, false⟩] _ (by decide)

/-- **The decoder gets back into step.** Whatever it was fed before, the code of a key leaves it at
    its start, so that the events after it are decoded right, whichever they are. -/
theorem decode_after_noise (s : State) (noise : List UInt8) (e : KeyEvent) :
    ∃ seen, ∀ es : List KeyEvent,
      feed (fun s b => some (addByte s b)) s (noise ++ e.code :: es.flatMap KeyEvent.encode)
        = some (.start, seen ++ es.map KeyEvent.event) := by
  induction noise generalizing s with
  | nil =>
    have hcode := e.code_ne
    have hstart : (addByte s e.code).1 = .start := by cases s <;> simp [addByte, hcode]
    refine ⟨(addByte s e.code).2.toList, fun es => ?_⟩
    simp [feed, hstart, feed_flatMap KeyEvent.feed_encode]
  | cons b noise ih =>
    obtain ⟨seen, hseen⟩ := ih (addByte s b).1
    refine ⟨(addByte s b).2.toList ++ seen, fun es => ?_⟩
    simp [feed, hseen]

/-! ## The mouse -/

inductive MouseTypeId where
  | standard
  | withScrollWheel
  | withExtraButtons
  deriving DecidableEq

inductive PS2MousePackets where
  | none
  | one (a : UInt8)
  | two (a b : UInt8)
  | three (a b c : UInt8)

structure MousePacket where
  left : Bool
  right : Bool
  middle : Bool
  xMov : Int8
  yMov : Int8

/-- The arithmetic of `i16` does not overflow here. -/
def sendPacket (p1 p2 p3 : UInt8) : MousePacket :=
  let x : Int := p2.toNat
  let x := if p1 &&& 0b00010000 > 0 then -(256 - x) else x
  let y : Int := p3.toNat
  let y := if p1 &&& 0b00100000 > 0 then 256 - y else -y
  ⟨p1 &&& 0b00000001 > 0, p1 &&& 0b00000010 > 0, p1 &&& 0b00000100 > 0, .ofInt x, .ofInt y⟩

/-- `none` is the branch that is not to be reached. -/
def checkInterrupts (mouseType : MouseTypeId) (packetState : PS2MousePackets) (data : UInt8) :
    Option (PS2MousePackets × Option MousePacket) :=
  match packetState, mouseType with
  | .none, _ => some (.one data, .none)
  | .one a, _ => some (.two a data, .none)
  | .two a b, .standard => some (.none, sendPacket a b data)
  | _, .standard => .none
  | .two a b, _ => some (.three a b data, .none)
  | .three a b c, _ => some (.none, sendPacket a b c)

/-- A packet as the mouse sends it. A standard mouse sends no fourth byte. -/
structure Packet where
  first : UInt8
  second : UInt8
  third : UInt8
  fourth : UInt8

namespace Packet

variable (p : Packet)

def bytes (mouseType : MouseTypeId) : List UInt8 :=
  if mouseType = .standard then [p.first, p.second, p.third]
  else [p.first, p.second, p.third, p.fourth]

/-- The 9-bit movements. -/
def x : Int := p.second.toNat - if p.first &&& 0b00010000 > 0 then 256 else 0

def y : Int := p.third.toNat - if p.first &&& 0b00100000 > 0 then 256 else 0

def SameSign (a b : Int) : Prop := (0 < a ↔ 0 < b) ∧ (a < 0 ↔ b < 0)

/-- The event has the buttons of the packet and goes in its direction; on the screen, `y` goes
    down. -/
structure Shown (e : MousePacket) : Prop where
  left : e.left = decide (p.first &&& 1 > 0)
  right : e.right = decide (p.first &&& 2 > 0)
  middle : e.middle = decide (p.first &&& 4 > 0)
  x : SameSign e.xMov.toInt p.x
  y : SameSign e.yMov.toInt (-p.y)

/-- The movement fits the fields of an event. -/
def Slow : Prop := -128 ≤ p.x ∧ p.x < 128 ∧ -128 < p.y ∧ p.y ≤ 128

theorem sameSign_ofInt {a : Int} (hlow : -256 ≤ a) (hhigh : a ≤ 256) :
    SameSign (Int8.ofInt a).toInt a ↔ -128 ≤ a ∧ a < 128 := by
  rw [SameSign, Int8.toInt_ofInt, Int8.size, Int.bmod]
  split <;> omega

theorem shown_iff : p.Shown (sendPacket p.first p.second p.third) ↔ p.Slow := by
  have hsecond := p.second.toNat_lt
  have hthird := p.third.toNat_lt
  have hx : (sendPacket p.first p.second p.third).xMov = .ofInt p.x := by
    refine congrArg Int8.ofInt ?_
    unfold Packet.x
    split <;> omega
  have hy : (sendPacket p.first p.second p.third).yMov = .ofInt (-p.y) := by
    refine congrArg Int8.ofInt ?_
    unfold Packet.y
    split <;> omega
  have hfits : SameSign (Int8.ofInt p.x).toInt p.x ∧ SameSign (Int8.ofInt (-p.y)).toInt (-p.y) ↔
      p.Slow := by
    rw [sameSign_ofInt, sameSign_ofInt, Slow]
    · omega
    all_goals
      simp only [Packet.x, Packet.y]
      split <;> omega
  rw [← hfits]
  exact ⟨fun h => ⟨hx ▸ h.x, hy ▸ h.y⟩, fun h => ⟨rfl, rfl, rfl, hx ▸ h.1, hy ▸ h.2⟩⟩

theorem feed_bytes (mouseType : MouseTypeId) : feed (checkInterrupts mouseType) .none
    (p.bytes mouseType) = some (.none, [sendPacket p.first p.second p.third]) := by
  cases mouseType <;> rfl

end Packet

/-- Each packet brings one event, which shows it. -/
def KeepsDirection (mouseType : MouseTypeId) (packets : List Packet) : Prop :=
  ∃ events, feed (checkInterrupts mouseType) .none (packets.flatMap (·.bytes mouseType))
    = some (.none, events) ∧ Forall₂ Packet.Shown packets events

/-- **The events show the packets exactly if all movements fit.** -/
theorem keepsDirection_iff (mouseType : MouseTypeId) (packets : List Packet) :
    KeepsDirection mouseType packets ↔ ∀ p ∈ packets, p.Slow := by
  unfold KeepsDirection
  rw [feed_flatMap (fun p : Packet => p.feed_bytes mouseType)]
  simp only [some.injEq, Prod.mk.injEq, true_and, exists_eq_left', forall₂_map_right_iff,
    forall₂_same, Packet.shown_iff]

/-- A movement by 200 to the right comes out as one by 56 to the left. -/
theorem fast_movement_reversed : ¬ KeepsDirection .standard [⟨8, 200, 0, 0⟩] := by
  rintro ⟨events, hfeed, hshown⟩
  cases hfeed
  cases hshown with
  | cons hfirst => exact absurd (hfirst.x.1.2 (by decide)) (by decide)

end Fioxa.Ps2
