import BalanceAttack.Time

/-!
# BalanceAttack.Network.City

The cities nodes are placed in, and the delay of a message between any two of
them.  The delays are measured and depend on the direction; within a city a
message takes one millisecond.
-/

namespace BalanceAttack.City

/-- The number of cities. -/
def count : Nat := 20

/-- Delays in microseconds, by the city of the sender and that of the receiver. -/
def microseconds : Array (Array Nat) := #[
  #[1000, 296928, 36986, 20409, 24794, 114291, 124786, 7158, 141355, 27041,
    41920, 6151, 204770, 281861, 183197, 21620, 276805, 263036, 93053, 91225],
  #[286701, 1000, 295947, 293476, 299945, 183301, 403763, 275475, 162868, 290705,
    325031, 280406, 310881, 275683, 122325, 309163, 27954, 191476, 200025, 208471],
  #[37020, 295885, 1000, 64691, 44147, 147641, 298107, 32911, 154864, 33321,
    79280, 28580, 229974, 283125, 283911, 64068, 349435, 308048, 114397, 111466],
  #[21655, 292504, 64448, 1000, 44213, 128031, 166586, 25746, 154795, 22578,
    48598, 24474, 226750, 228028, 202137, 40721, 329261, 247137, 115047, 102718],
  #[24645, 300208, 44117, 45836, 1000, 127607, 153503, 18473, 159794, 29343,
    43855, 24118, 220427, 274238, 187711, 10267, 350329, 257589, 110576, 104095],
  #[114348, 177724, 156003, 135368, 128560, 1000, 226789, 106173, 29910, 127173,
    167252, 116563, 139161, 306019, 202181, 143448, 182980, 134586, 43340, 36941],
  #[124853, 398625, 298227, 170584, 153574, 224058, 1000, 232507, 250196, 134520,
    175183, 153978, 321260, 339943, 84054, 141563, 268929, 261680, 215679, 205258],
  #[7069, 275129, 32877, 24828, 18435, 106066, 232099, 1000, 132723, 23269,
    50843, 5334, 197446, 275735, 198735, 28293, 294679, 234943, 83542, 73496],
  #[141236, 162596, 154723, 153674, 159786, 29904, 247623, 132782, 1000, 153371,
    185834, 144435, 173217, 195546, 179019, 159125, 156547, 107611, 58763, 69354],
  #[27110, 290308, 33351, 30656, 29415, 127132, 134475, 23425, 154048, 1000,
    56165, 21329, 218702, 342649, 267180, 38005, 381607, 249651, 115757, 101378],
  #[42321, 324974, 79044, 55598, 43859, 167470, 175968, 50674, 185869, 55931,
    1000, 56673, 248073, 148801, 204403, 21157, 342171, 294165, 133209, 129044],
  #[9209, 279948, 28734, 22704, 28070, 117135, 130943, 5480, 149376, 17610,
    61736, 1000, 204172, 279170, 260415, 42758, 365667, 252355, 114698, 91369],
  #[204529, 310635, 237215, 222165, 214811, 135386, 316096, 190667, 173160, 223296,
    252358, 229861, 1000, 356349, 349441, 228036, 314972, 266768, 137577, 126636],
  #[284393, 276257, 286520, 227285, 274416, 212749, 342619, 277733, 153516, 336035,
    148591, 271151, 366362, 1000, 235712, 284305, 148917, 74656, 216897, 259348],
  #[180516, 118915, 283852, 202361, 197584, 202168, 84107, 181458, 179024, 267165,
    204386, 251497, 349760, 235791, 1000, 202265, 93559, 66873, 241053, 242352],
  #[21591, 309057, 64050, 41096, 10330, 143388, 141558, 28256, 159239, 38228,
    21291, 29722, 228183, 284382, 202297, 1000, 362993, 288137, 126377, 115360],
  #[295710, 25877, 349888, 360115, 317624, 251018, 270281, 294423, 156664, 317537,
    374436, 355073, 315271, 148589, 93654, 393391, 1000, 114007, 220726, 231180],
  #[265392, 191890, 308000, 247975, 257657, 134503, 261220, 235604, 107616, 248756,
    294027, 235052, 266815, 73862, 67057, 288337, 114908, 1000, 172820, 157804],
  #[92821, 199057, 110957, 115542, 117678, 43363, 212605, 83698, 58722, 115425,
    131442, 101325, 139016, 216807, 241289, 126485, 219442, 172790, 1000, 21106],
  #[94040, 208082, 111349, 103343, 104072, 38178, 205549, 73288, 69407, 105464,
    129584, 82410, 126681, 239586, 246168, 114586, 262434, 160829, 21182, 1000]]

/-- The delay in milliseconds of a message between two cities. -/
def delay (origin target : Nat) : Except Fault Float := do
  return (UInt64.ofNat (← Fault.read (← Fault.read microseconds origin) target)).toFloat / 1000

/-! ## the shape of the table -/

example : microseconds.size = count := by decide

example : microseconds.all (·.size = count) = true := by decide +kernel

example : (microseconds.mapIdx fun i row => row[i]?) = Array.replicate count (some 1000) := by
  decide +kernel

end BalanceAttack.City
